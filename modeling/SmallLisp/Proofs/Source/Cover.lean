import SmallLisp.Source.Position

namespace SmallLisp

namespace Span

structure Ascending (ss : List Span) : Prop where
  covers : ∀ s ∈ ss, s.start.offset < s.stop.offset
  pairwise : ss.Pairwise fun s t => s.stop.offset ≤ t.start.offset

def Within (s t : Span) : Prop :=
  t.start.offset ≤ s.start.offset ∧ s.stop.offset ≤ t.stop.offset

instance (s t : Span) : Decidable (s.Within t) :=
  inferInstanceAs (Decidable (t.start.offset ≤ s.start.offset ∧ s.stop.offset ≤ t.stop.offset))

structure Reaches (s : Span) (ps : List Span) : Prop where
  first : ps.head?.map Span.start = some s.start
  last : ps.getLast?.map Span.stop = some s.stop

/-- Spans over neighbouring places, each of which reaches over some of them. -/
inductive Cover : List Span → List Span → Prop
  | nil : Cover [] []
  | cons {s : Span} {ss ps qs : List Span} : Reaches s ps → Cover ss qs → Cover (s :: ss) (ps ++ qs)

variable {s t : Span} {ss ts ps qs : List Span}

theorem filter_within {α : Type} {span : α → Span} {as bs cs : List α}
    (has : ∀ a ∈ as, ¬(span a).Within s) (hbs : ∀ b ∈ bs, (span b).Within s)
    (hcs : ∀ c ∈ cs, ¬(span c).Within s) :
    (as ++ bs ++ cs).filter (fun a => (span a).Within s) = bs := by
  have hbefore : as.filter (fun a => (span a).Within s) = [] :=
    List.filter_eq_nil_iff.mpr fun a ha hwithin => has a ha (of_decide_eq_true hwithin)
  have hbetween : bs.filter (fun a => (span a).Within s) = bs :=
    List.filter_eq_self.mpr fun b hb => decide_eq_true (hbs b hb)
  have hbehind : cs.filter (fun a => (span a).Within s) = [] :=
    List.filter_eq_nil_iff.mpr fun c hc hwithin => hcs c hc (of_decide_eq_true hwithin)
  rw [List.filter_append, List.filter_append, hbefore, hbetween, hbehind, List.nil_append,
    List.append_nil]

theorem Ascending.sublist (h : Ascending ps) (hsub : qs.Sublist ps) : Ascending qs :=
  ⟨fun q hq => h.covers q (hsub.subset hq), h.pairwise.sublist hsub⟩

theorem reaches_self (s : Span) : Reaches s [s] := ⟨rfl, rfl⟩

theorem Reaches.exists_first (h : Reaches s ps) : ∃ p, p ∈ ps.head? ∧ p.start = s.start :=
  Option.map_eq_some_iff.mp h.first

theorem Reaches.exists_last (h : Reaches s ps) : ∃ p, p ∈ ps.getLast? ∧ p.stop = s.stop :=
  Option.map_eq_some_iff.mp h.last

theorem Reaches.le_start (h : Reaches s ps) {k : Int} (hk : ∀ p ∈ ps, k ≤ p.start.offset) :
    k ≤ s.start.offset := by
  obtain ⟨p, hp, hstart⟩ := h.exists_first
  rw [← hstart]
  exact hk p (List.mem_of_mem_head? hp)

theorem Reaches.stop_le (h : Reaches s ps) {k : Int} (hk : ∀ p ∈ ps, p.stop.offset ≤ k) :
    s.stop.offset ≤ k := by
  obtain ⟨p, hp, hstop⟩ := h.exists_last
  rw [← hstop]
  exact hk p (List.mem_of_mem_getLast? hp)

theorem Reaches.within (h : Reaches s ps) (hps : Ascending ps) : ∀ p ∈ ps, p.Within s := by
  intro p hp
  obtain ⟨q, hq, hstart⟩ := h.exists_first
  obtain ⟨r, hr, hstop⟩ := h.exists_last
  obtain ⟨behind, rfl⟩ := List.head?_eq_some_iff.mp hq
  obtain ⟨ahead, hahead⟩ := List.getLast?_eq_some_iff.mp hr
  refine ⟨?_, ?_⟩
  · rw [← hstart]
    rcases List.mem_cons.mp hp with rfl | hp
    · exact Int.le_refl _
    · have hbefore := (List.pairwise_cons.mp hps.pairwise).1 p hp
      have hcovers := hps.covers q List.mem_cons_self
      omega
  · rw [← hstop]
    rw [hahead] at hps hp
    rcases List.mem_append.mp hp with hp | hp
    · have hbefore := (List.pairwise_append.mp hps.pairwise).2.2 p hp r List.mem_cons_self
      have hcovers := hps.covers r (by simp)
      omega
    · obtain rfl := List.mem_singleton.mp hp
      exact Int.le_refl _

theorem Reaches.covers (h : Reaches s ps) (hps : Ascending ps) : s.start.offset < s.stop.offset := by
  obtain ⟨p, hp, hstart⟩ := h.exists_first
  have hmem := List.mem_of_mem_head? hp
  have hcovers := hps.covers p hmem
  have hwithin := (h.within hps p hmem).2
  rw [← hstart]
  omega

theorem Cover.append (h : Cover ss ps) (h' : Cover ts qs) : Cover (ss ++ ts) (ps ++ qs) := by
  induction h with
  | nil => exact h'
  | cons hs _ ih =>
      rw [List.cons_append, List.append_assoc]
      exact .cons hs ih

theorem cover_self (ss : List Span) : Cover ss ss := by
  induction ss with
  | nil => exact .nil
  | cons s ss ih => exact .cons (reaches_self s) ih

theorem cover_map {α : Type} {span : α → Span} {places : α → List Span} {as : List α}
    (h : ∀ a ∈ as, Ascending (places a) → Reaches (span a) (places a))
    (has : Ascending (as.flatMap places)) : Cover (as.map span) (as.flatMap places) := by
  induction as with
  | nil => exact .nil
  | cons a as ih =>
      obtain ⟨ha, hrest⟩ := List.forall_mem_cons.mp h
      exact .cons (ha (has.sublist (List.sublist_append_left _ _)))
        (ih hrest (has.sublist (List.sublist_append_right _ _)))

theorem Cover.le_start (h : Cover ss ps) {k : Int} (hk : ∀ p ∈ ps, k ≤ p.start.offset) :
    ∀ s ∈ ss, k ≤ s.start.offset := by
  induction h with
  | nil => simp
  | cons hs _ ih =>
      obtain ⟨hps, hqs⟩ := List.forall_mem_append.mp hk
      exact List.forall_mem_cons.mpr ⟨hs.le_start hps, ih hqs⟩

theorem Cover.stop_le (h : Cover ss ps) {k : Int} (hk : ∀ p ∈ ps, p.stop.offset ≤ k) :
    ∀ s ∈ ss, s.stop.offset ≤ k := by
  induction h with
  | nil => simp
  | cons hs _ ih =>
      obtain ⟨hps, hqs⟩ := List.forall_mem_append.mp hk
      exact List.forall_mem_cons.mpr ⟨hs.stop_le hps, ih hqs⟩

theorem Cover.within (h : Cover ss ps) (hps : Ascending ps) (hs : Reaches s ps) :
    ∀ t ∈ ss, t.Within s := by
  intro t ht
  have hwithin := hs.within hps
  exact ⟨h.le_start (fun p hp => (hwithin p hp).1) t ht, h.stop_le (fun p hp => (hwithin p hp).2) t ht⟩

theorem Cover.ascending (h : Cover ss ps) (hps : Ascending ps) : Ascending ss := by
  induction h with
  | nil => exact hps
  | @cons s ss ps qs hs hss ih =>
      have hfirst := hps.sublist (List.sublist_append_left ps qs)
      have hrest := ih (hps.sublist (List.sublist_append_right ps qs))
      refine ⟨List.forall_mem_cons.mpr ⟨hs.covers hfirst, hrest.covers⟩,
        List.pairwise_cons.mpr ⟨?_, hrest.pairwise⟩⟩
      obtain ⟨_, _, hbefore⟩ := List.pairwise_append.mp hps.pairwise
      exact hss.le_start fun q hq => hs.stop_le fun p hp => hbefore p hp q hq

theorem Cover.first (h : Cover ss ps) (hs : s ∈ ss.head?) : ps.head?.map start = some s.start := by
  cases h with
  | nil => cases hs
  | cons hreaches _ =>
      obtain rfl := Option.some.inj hs
      obtain ⟨p, hp, hstart⟩ := hreaches.exists_first
      rw [List.head?_append, Option.mem_def.mp hp]
      exact congrArg some hstart

theorem Cover.last (h : Cover ss ps) (hs : s ∈ ss.getLast?) : ps.getLast?.map stop = some s.stop := by
  induction h with
  | nil => cases hs
  | @cons t ss ps qs hreaches hcover ih =>
      cases ss with
      | nil =>
          cases hcover
          obtain rfl := Option.some.inj hs
          rw [List.append_nil]
          exact hreaches.last
      | cons t' ss =>
          obtain ⟨q, hq, hstop⟩ := Option.map_eq_some_iff.mp (ih hs)
          rw [List.getLast?_append, hq]
          exact congrArg some hstop

def Joins (s : Span) (ss : List Span) : Prop := ∃ t ∈ ss.head?, ∃ u ∈ ss.getLast?, s = t.join u

theorem joins_self (s : Span) : Joins s [s] := ⟨s, rfl, s, rfl, (join_self s).symm⟩

theorem Joins.reaches_self (h : Joins s ss) (hss : Ascending ss) : Reaches s ss := by
  obtain ⟨t, ht, u, hu, rfl⟩ := h
  obtain ⟨behind, rfl⟩ := List.head?_eq_some_iff.mp ht
  have hjoin : t.join u = ⟨t.start, u.stop⟩ := by
    rcases List.mem_cons.mp (List.mem_of_mem_getLast? hu) with rfl | hmem
    · exact join_self u
    · have hbefore := (List.pairwise_cons.mp hss.pairwise).1 u hmem
      have ht := hss.covers t List.mem_cons_self
      have hu := hss.covers u (List.mem_cons_of_mem t hmem)
      rw [join, if_neg (by omega), if_pos (by omega)]
  rw [hjoin]
  exact ⟨rfl, congrArg (Option.map stop) hu⟩

theorem Joins.reaches (h : Joins s ss) (hss : Cover ss ps) (hps : Ascending ps) : Reaches s ps := by
  have hself := h.reaches_self (hss.ascending hps)
  obtain ⟨t, ht, hstart⟩ := hself.exists_first
  obtain ⟨u, hu, hstop⟩ := hself.exists_last
  exact ⟨hstart ▸ hss.first ht, hstop ▸ hss.last hu⟩

end Span

end SmallLisp
