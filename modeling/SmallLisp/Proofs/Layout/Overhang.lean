import SmallLisp.Proofs.Layout.Flat

namespace SmallLisp

@[simp] theorem Text.utf8ByteSize_space : " ".utf8ByteSize = 1 := rfl

namespace Page

def Within (page : Page) (width : Nat) : Prop := ∀ line ∈ page.lines, line.utf8ByteSize ≤ width

theorem maxWidth_le_iff {page : Page} {width : Nat} : page.maxWidth ≤ width ↔ page.Within width := by
  have hfold (lines : List String) (start : Nat) :
      lines.foldl (fun w line => max w line.utf8ByteSize) start ≤ width ↔
        start ≤ width ∧ ∀ line ∈ lines, line.utf8ByteSize ≤ width := by
    induction lines generalizing start with
    | nil => simp
    | cons line lines ih => rw [List.foldl_cons, ih, Nat.max_le, List.forall_mem_cons, and_assoc]
  exact (hfold page.lines 0).trans (and_iff_right (Nat.zero_le _))

theorem top?_write (page : Page) (s : String) :
    (page.write s).lines.top? = some (page.lines.top?.getD "" ++ s) := by
  obtain ⟨indent, lines⟩ := page
  cases lines <;> simp [write, Stack.top?]

theorem tail_write (page : Page) (s : String) : (page.write s).lines.tail = page.lines.tail := by
  obtain ⟨indent, lines⟩ := page
  cases lines <;> rfl

@[simp] theorem indent_write (page : Page) (s : String) : (page.write s).indent = page.indent := by
  obtain ⟨indent, lines⟩ := page
  cases lines <;> rfl

theorem lineWidth_write (page : Page) (s : String) :
    (page.write s).lineWidth = page.lineWidth + s.utf8ByteSize := by
  rw [lineWidth, lineWidth, top?_write]
  cases page.lines.top? <;> simp

structure Grown (p q : Page) : Prop where
  indent : q.indent = p.indent
  within : ∀ {width}, q.Within width → p.Within width

theorem Grown.refl (p : Page) : p.Grown p := ⟨rfl, id⟩

theorem Grown.trans {p q r : Page} (h : p.Grown q) (k : q.Grown r) : p.Grown r :=
  ⟨k.indent.trans h.indent, fun hr => h.within (k.within hr)⟩

theorem grown_write (p : Page) (s : String) : p.Grown (p.write s) where
  indent := indent_write p s
  within := by
    obtain ⟨indent, lines⟩ := p
    intro width h
    cases lines with
    | nil => simp [Within]
    | cons line lines =>
        obtain ⟨hline, hlines⟩ := List.forall_mem_cons.mp h
        rw [String.utf8ByteSize_append] at hline
        exact List.forall_mem_cons.mpr ⟨by omega, hlines⟩

/-- Two pages on their way: they stand at the same indentation, the lines of the first one above its
current line fit, and that line is the one of the other page, or fits with what is still to come on it. -/
structure Beside (width toCome : Nat) (page other : Page) : Prop where
  indent : page.indent = other.indent
  above : ∀ line ∈ page.lines.tail, line.utf8ByteSize ≤ width
  current : page.lines.top? = other.lines.top? ∨ page.lineWidth + toCome ≤ width

variable {width toCome toCome' : Nat} {page other : Page}

theorem Beside.mono (h : Beside width toCome page other) (hle : toCome' ≤ toCome) :
    Beside width toCome' page other where
  indent := h.indent
  above := h.above
  current := h.current.imp_right fun hfits => by omega

theorem Beside.write {s : String} (h : Beside width (s.utf8ByteSize + toCome) page other) :
    Beside width toCome (page.write s) (other.write s) where
  indent := by rw [indent_write, indent_write, h.indent]
  above := by
    rw [tail_write]
    exact h.above
  current := by
    rcases h.current with htop | hfits
    · left
      rw [top?_write, top?_write, htop]
    · right
      rw [lineWidth_write]
      omega

theorem Beside.write_fitting {s : String} {q : Page} (h : Beside width toCome' page other)
    (hq : other.Grown q) (hfits : page.lineWidth + s.utf8ByteSize + toCome ≤ width) :
    Beside width toCome (page.write s) q where
  indent := by rw [indent_write, h.indent, hq.indent]
  above := by
    rw [tail_write]
    exact h.above
  current := by
    right
    rwa [lineWidth_write]

theorem Beside.within (h : Beside width toCome page other) (ho : other.Within width) :
    page.Within width := by
  obtain ⟨indent, lines⟩ := page
  cases lines with
  | nil => simp [Within]
  | cons line lines =>
      refine List.forall_mem_cons.mpr ⟨?_, h.above⟩
      rcases h.current with htop | hfits
      · exact ho line (List.mem_of_head? htop.symm)
      · exact Nat.le_trans (Nat.le_add_right _ _) hfits

theorem Beside.newLine (h : Beside width toCome page other) (ho : other.Within width) (levels : Int) :
    Beside width toCome' (page.indentBy levels).newLine (other.indentBy levels).newLine where
  indent := congrArg (· + levels) h.indent
  above := h.within ho
  current := by
    left
    change some (margin (page.indent + levels)) = some (margin (other.indent + levels))
    rw [h.indent]

theorem Beside.indentBy (h : Beside width toCome page other) (levels : Int) :
    Beside width toCome (page.indentBy levels) (other.indentBy levels) :=
  ⟨congrArg (· + levels) h.indent, h.above, h.current⟩

end Page

namespace Doc

theorem utf8ByteSize_flat_list (items : List Doc) :
    (Doc.list items).flat.utf8ByteSize = 2 + (Text.spaced (items.map flat)).utf8ByteSize := by
  have hopening : "(".utf8ByteSize = 1 := rfl
  have hclosing : ")".utf8ByteSize = 1 := rfl
  simp [flat, flats_eq_map, Text.bracketed]
  omega

theorem utf8ByteSize_flat_map (entries : List (Doc × Doc)) :
    (Doc.map entries).flat.utf8ByteSize =
      2 + (Text.spaced ((entries.flatMap fun e => [e.1, e.2]).map flat)).utf8ByteSize := by
  have hopening : "\x7b".utf8ByteSize = 1 := rfl
  have hclosing : "\x7d".utf8ByteSize = 1 := rfl
  simp [flat, entryFlats_eq_map, Text.bracketed]
  omega

end Doc

namespace Printer

open Page (Within Grown Beside)

variable {p : Printer} {width : Nat}

def narrowest (p : Printer) : Printer := { p with width := 0 }

def spread (p : Printer) (d : Doc) : Page := put p.narrowest lastRound d .blank

theorem roundFor_narrowest_list (p : Printer) (round : Nat) (page : Page) (items : List Doc) :
    roundFor p.narrowest.width round page (.list items) = round := by
  simp [roundFor, narrowest, Doc.flat, Text.bracketed]

theorem roundFor_narrowest_map (p : Printer) (round : Nat) (page : Page) (entries : List (Doc × Doc)) :
    roundFor p.narrowest.width round page (.map entries) = round := by
  simp [roundFor, narrowest, Doc.flat, Text.bracketed]

def gap (i : Nat) : Nat := if i = 0 then 0 else 1

/-- How much stands on a line in front of the next item that has a line of its own in the last round, if
the items from place `i` on are still to come, and `behind` them as much as that. -/
def itemsToCome (r : HeadRule) (behind i : Nat) : List Doc → Nat
  | [] => behind
  | d :: ds =>
      if breaks lastRound (r.priorityAt i) then 0
      else gap i + (d.flat.utf8ByteSize + itemsToCome r behind (i + 1) ds)

def entriesToCome (behind i : Nat) : List (Doc × Doc) → Nat
  | [] => behind
  | (k, v) :: es =>
      if breaks lastRound (keyPriority i) then 0
      else gap i + (k.flat.utf8ByteSize + (1 + (v.flat.utf8ByteSize + entriesToCome behind (i + 1) es)))

mutual

/-- The most that stands behind a list or a map on its line, the closing brackets included, with `behind`
that much behind the whole. -/
def overhang (p : Printer) (behind : Nat) : Doc → Nat
  | .word _ _ => 0
  | .list items =>
      match p.rules.find? (·.applies items) with
      | some r => max behind (itemsOverhang p r (1 + behind) 0 items)
      | none => 0
  | .map entries => max behind (entriesOverhang p (1 + behind) 0 entries)

def itemsOverhang (p : Printer) (r : HeadRule) (behind i : Nat) : List Doc → Nat
  | [] => 0
  | d :: ds =>
      max (overhang p (itemsToCome r behind (i + 1) ds) d) (itemsOverhang p r behind (i + 1) ds)

def entriesOverhang (p : Printer) (behind i : Nat) : List (Doc × Doc) → Nat
  | [] => 0
  | (k, v) :: es =>
      max (overhang p (1 + (v.flat.utf8ByteSize + entriesToCome behind (i + 1) es)) k)
        (max (overhang p (entriesToCome behind (i + 1) es) v) (entriesOverhang p behind (i + 1) es))

end

theorem grown_place {put : Page → Page} (hput : ∀ page : Page, page.Grown (put page)) (broken isFirst : Bool)
    (indent : Nat) (page : Page) : page.Grown (place broken isFirst indent put page) := by
  unfold place
  split
  · have hline := hput (page.indentBy indent).newLine
    refine ⟨?_, fun h line hmem => hline.within h line (List.mem_cons_of_mem _ hmem)⟩
    have hindent : (put (page.indentBy indent).newLine).indent = page.indent + indent := hline.indent
    change (put (page.indentBy indent).newLine).indent + -↑indent = page.indent
    rw [hindent]
    omega
  · split
    · exact hput page
    · exact (page.grown_write " ").trans (hput _)

theorem grown_putItems {round : Nat} {ds : List Doc}
    (hds : ∀ d ∈ ds, ∀ page : Page, page.Grown (put p round d page)) (r : HeadRule) (i : Nat) (page : Page) :
    page.Grown (putItems p round r i ds page) := by
  induction ds generalizing i page with
  | nil => exact .refl page
  | cons d ds ih =>
      obtain ⟨hd, hds⟩ := List.forall_mem_cons.mp hds
      exact (grown_place hd _ _ _ page).trans (ih hds (i + 1) _)

theorem grown_putEntries {round : Nat} {es : List (Doc × Doc)}
    (hes : ∀ e ∈ es, (∀ page : Page, page.Grown (put p round e.1 page)) ∧
      ∀ page : Page, page.Grown (put p round e.2 page)) (i : Nat) (page : Page) :
    page.Grown (putEntries p round i es page) := by
  induction es generalizing i page with
  | nil => exact .refl page
  | cons e es ih =>
      obtain ⟨⟨hk, hv⟩, hes⟩ := List.forall_mem_cons.mp hes
      exact ((grown_place hk _ _ _ page).trans (grown_place hv _ _ _ _)).trans (ih hes (i + 1) _)

theorem grown_put (d : Doc) : ∀ round (page : Page), page.Grown (put p round d page) := by
  induction d using Doc.induction with
  | word text isName => exact fun round page => page.grown_write text
  | list items ih =>
      intro round page
      rw [put]
      split
      · next r _ =>
          refine ((page.grown_write "(").trans ?_).trans (Page.grown_write _ ")")
          exact grown_putItems (fun d hd => ih d hd _) r 0 _
      · exact page.grown_write _
  | map entries ih =>
      intro round page
      rw [put]
      refine ((page.grown_write "\x7b").trans ?_).trans (Page.grown_write _ "\x7d")
      exact grown_putEntries (fun e he => ⟨(ih e he).1 _, (ih e he).2 _⟩) 0 _

theorem put_of_fits (hp : ∀ r ∈ p.rules, 0 < r.priority) {d : Doc} {page : Page}
    (h : page.lineWidth + d.flat.utf8ByteSize ≤ p.width) (round : Nat) :
    put p round d page = page.write d.flat := by
  have hround : roundFor p.width round page d = 0 := if_pos h
  rw [← put_zero hp]
  cases d with
  | word text isName => rfl
  | list items => rw [put, put, hround, roundFor_zero]
  | map entries => rw [put, put, hround, roundFor_zero]

theorem itemsToCome_le (r : HeadRule) (behind i : Nat) (ds : List Doc) :
    itemsToCome r behind (i + 1) ds ≤
      (String.join (ds.map fun d => " " ++ d.flat)).utf8ByteSize + behind := by
  induction ds generalizing i with
  | nil => simp [itemsToCome]
  | cons d ds ih =>
      have hds := ih (i + 1)
      rw [itemsToCome]
      split
      · exact Nat.zero_le _
      · simp [gap]
        omega

theorem entriesToCome_le (behind i : Nat) (es : List (Doc × Doc)) :
    entriesToCome behind (i + 1) es ≤
      (String.join ((es.flatMap fun e => [e.1, e.2]).map fun d => " " ++ d.flat)).utf8ByteSize + behind := by
  induction es generalizing i with
  | nil => simp [entriesToCome]
  | cons e es ih =>
      have hes := ih (i + 1)
      rw [entriesToCome]
      split
      · exact Nat.zero_le _
      · simp [gap]
        omega

theorem listToCome_le (r : HeadRule) (behind : Nat) (items : List Doc) :
    1 + itemsToCome r (1 + behind) 0 items ≤ (Doc.list items).flat.utf8ByteSize + behind := by
  rw [Doc.utf8ByteSize_flat_list]
  cases items with
  | nil =>
      rw [itemsToCome]
      omega
  | cons d ds =>
      have hds := itemsToCome_le r (1 + behind) 0 ds
      have hsize : (Text.spaced (List.map Doc.flat (d :: ds))).utf8ByteSize = d.flat.utf8ByteSize +
          (String.join (ds.map fun d => " " ++ d.flat)).utf8ByteSize := by
        rw [List.map_cons, Text.spaced_cons, String.utf8ByteSize_append, List.map_map]
        rfl
      rw [itemsToCome, gap, if_pos rfl]
      split <;> omega

theorem mapToCome_le (behind : Nat) (entries : List (Doc × Doc)) :
    1 + entriesToCome (1 + behind) 0 entries ≤ (Doc.map entries).flat.utf8ByteSize + behind := by
  rw [Doc.utf8ByteSize_flat_map]
  cases entries with
  | nil =>
      rw [entriesToCome]
      omega
  | cons e es =>
      obtain ⟨k, v⟩ := e
      have hes := entriesToCome_le (1 + behind) 0 es
      have hsize : (Text.spaced ((((k, v) :: es).flatMap fun e => [e.1, e.2]).map Doc.flat)).utf8ByteSize =
          k.flat.utf8ByteSize + (1 + v.flat.utf8ByteSize +
            (String.join ((es.flatMap fun e => [e.1, e.2]).map fun d => " " ++ d.flat)).utf8ByteSize) := by
        simp [Text.spaced_cons, Function.comp_def]
      rw [entriesToCome, gap, if_pos rfl]
      split <;> omega

def KeepsBeside (p : Printer) (width : Nat) (d : Doc) : Prop :=
  ∀ {behind : Nat} {page other : Page}, p.width + p.overhang behind d ≤ width →
    (put p.narrowest lastRound d other).Within width →
    Beside width (d.flat.utf8ByteSize + behind) page other →
    Beside width behind (put p lastRound d page) (put p.narrowest lastRound d other)

theorem KeepsBeside.place {d : Doc} (hd : KeepsBeside p width d) (broken : Bool) (i indent : Nat)
    {behind : Nat} {page other : Page} (hoverhang : p.width + p.overhang behind d ≤ width)
    (hother : (place broken (i == 0) indent (put p.narrowest lastRound d) other).Within width)
    (h : Beside width (if broken then 0 else gap i + (d.flat.utf8ByteSize + behind)) page other) :
    Beside width behind (place broken (i == 0) indent (put p lastRound d) page)
      (place broken (i == 0) indent (put p.narrowest lastRound d) other) := by
  have hpage := (grown_place (grown_put d lastRound) _ _ _ other).within hother
  cases broken with
  | true => exact (hd hoverhang hother (h.newLine hpage indent)).indentBy (-indent)
  | false =>
      cases i with
      | zero =>
          refine hd hoverhang hother (h.mono ?_)
          simp [gap]
      | succ i =>
          refine hd hoverhang hother (Beside.write (h.mono ?_))
          simp [gap]

theorem beside_putItems {r : HeadRule} {ds : List Doc} (hds : ∀ d ∈ ds, KeepsBeside p width d)
    {behind i : Nat} {page other : Page} (hoverhang : p.width + p.itemsOverhang r behind i ds ≤ width)
    (hother : (putItems p.narrowest lastRound r i ds other).Within width)
    (h : Beside width (itemsToCome r behind i ds) page other) :
    Beside width behind (putItems p lastRound r i ds page)
      (putItems p.narrowest lastRound r i ds other) := by
  induction ds generalizing i page other with
  | nil => exact h
  | cons d ds ih =>
      obtain ⟨hd, hds⟩ := List.forall_mem_cons.mp hds
      rw [itemsOverhang] at hoverhang
      have hplaced := (grown_putItems (fun d _ => grown_put d _) r (i + 1) _).within hother
      exact ih hds (by omega) hother (hd.place _ i _ (by omega) hplaced h)

theorem beside_putEntries {es : List (Doc × Doc)}
    (hes : ∀ e ∈ es, KeepsBeside p width e.1 ∧ KeepsBeside p width e.2)
    {behind i : Nat} {page other : Page} (hoverhang : p.width + p.entriesOverhang behind i es ≤ width)
    (hother : (putEntries p.narrowest lastRound i es other).Within width)
    (h : Beside width (entriesToCome behind i es) page other) :
    Beside width behind (putEntries p lastRound i es page)
      (putEntries p.narrowest lastRound i es other) := by
  induction es generalizing i page other with
  | nil => exact h
  | cons e es ih =>
      obtain ⟨k, v⟩ := e
      obtain ⟨⟨hk, hv⟩, hes⟩ := List.forall_mem_cons.mp hes
      rw [entriesOverhang] at hoverhang
      have hplaced :=
        (grown_putEntries (fun e _ => ⟨grown_put e.1 _, grown_put e.2 _⟩) (i + 1) _).within hother
      have hkeyPlaced := (grown_place (grown_put v lastRound) _ _ _ _).within hplaced
      have hkey : Beside width (1 + (v.flat.utf8ByteSize + entriesToCome behind (i + 1) es)) _ _ :=
        hk.place _ i 1 (by dsimp only; omega) hkeyPlaced h
      have hvalue : Beside width (entriesToCome behind (i + 1) es) _ _ :=
        hv.place false 1 0 (by dsimp only; omega) hplaced hkey
      exact ih hes (by omega) hother hvalue

theorem keepsBeside (hp : ∀ r ∈ p.rules, 0 < r.priority) (d : Doc) : KeepsBeside p width d := by
  induction d using Doc.induction with
  | word text isName => exact fun _ _ h => h.write
  | list items ih =>
      intro behind page other hoverhang hother h
      cases hfind : p.rules.find? (·.applies items) with
      | none =>
          have hfind' : p.narrowest.rules.find? (·.applies items) = none := hfind
          simp only [put, hfind, hfind']
          exact h.write
      | some r =>
          have hfind' : p.narrowest.rules.find? (·.applies items) = some r := hfind
          rw [overhang, hfind] at hoverhang
          dsimp only at hoverhang
          -- What fits on the rest of its line is written there, and no more than its overhang follows it;
          -- anything else is broken on both pages alike.
          by_cases hfits : page.lineWidth + (Doc.list items).flat.utf8ByteSize ≤ p.width
          · rw [put_of_fits hp hfits]
            exact h.write_fitting (grown_put _ _ other) (by omega)
          · have hround : roundFor p.width lastRound page (.list items) = lastRound := if_neg hfits
            simp only [put, hfind, hfind', hround, roundFor_narrowest_list] at hother ⊢
            have hitems := (Page.grown_write _ _).within hother
            refine Beside.write (s := ")") ?_
            change Beside width (1 + behind) _ _
            exact beside_putItems ih (by omega) hitems (Beside.write (h.mono (listToCome_le r behind items)))
  | map entries ih =>
      intro behind page other hoverhang hother h
      rw [overhang] at hoverhang
      by_cases hfits : page.lineWidth + (Doc.map entries).flat.utf8ByteSize ≤ p.width
      · rw [put_of_fits hp hfits]
        exact h.write_fitting (grown_put _ _ other) (by omega)
      · have hround : roundFor p.width lastRound page (.map entries) = lastRound := if_neg hfits
        simp only [put, hround, roundFor_narrowest_map] at hother ⊢
        have hentries := (Page.grown_write _ _).within hother
        refine Beside.write (s := "\x7d") ?_
        change Beside width (1 + behind) _ _
        exact beside_putEntries ih (by omega) hentries (Beside.write (h.mono (mapToCome_le behind entries)))

theorem fitting_cases (p : Printer) (d : Doc) (more round : Nat) :
    (fitting p d more round).maxWidth ≤ p.width ∨
      fitting p d more round = put p (round + more) d .blank := by
  induction more generalizing round with
  | zero => exact .inr rfl
  | succ more ih =>
      rw [fitting]
      split
      · next hfits => exact .inl hfits
      · rw [← Nat.add_assoc, Nat.add_right_comm]
        exact ih (round + 1)

theorem within_put_lastRound (hp : ∀ r ∈ p.rules, 0 < r.priority) {d : Doc}
    (hspread : (p.spread d).Within width) (hoverhang : p.width + p.overhang 0 d ≤ width) :
    (put p lastRound d .blank).Within width := by
  have hblank : Beside width (d.flat.utf8ByteSize + 0) .blank .blank := ⟨rfl, nofun, .inl rfl⟩
  exact (keepsBeside hp d hoverhang hspread hblank).within hspread

/-- No line of a layout exceeds the width by more than its overhang, unless a line is as wide in the
layout in which everything is broken. -/
theorem layout_exceeds_by_overhang (width : Nat) (e : Expr) :
    ((new width).layout e.doc).maxWidth ≤
      max ((new width).spread e.doc).maxWidth (width + (new width).overhang 0 e.doc) := by
  rcases fitting_cases (new width) e.doc lastRound 0 with hfits | hlast
  · have hwidth : (new width).width ≤ width + (new width).overhang 0 e.doc := Nat.le_add_right _ _
    exact Nat.le_trans (Nat.le_trans hfits hwidth) (Nat.le_max_right _ _)
  · rw [layout, hlast, Nat.zero_add, Page.maxWidth_le_iff]
    exact within_put_lastRound priority_standard (Page.maxWidth_le_iff.mp (Nat.le_max_left _ _))
      (Nat.le_max_right _ _)

/-- A list that fits on its line, but not with the bracket behind it. -/
theorem layout_exceeds_width :
    let e : Expr := .list [.symbol "a" [], .list [.symbol "bbbb" [], .symbol "c" []] []] []
    ((new 11).spread e.doc).text = "(a\n   (bbbb\n      c))\n" ∧
      (new 11).format e = "(a\n   (bbbb c))\n" ∧
      ((new 11).spread e.doc).maxWidth ≤ 11 ∧ ¬((new 11).layout e.doc).maxWidth ≤ 11 ∧
      ((new 11).layout e.doc).maxWidth = 11 + (new 11).overhang 0 e.doc := by
  intro e
  have hspread : ((new 11).spread e.doc).maxWidth = 9 := by decide +kernel
  have hlayout : ((new 11).layout e.doc).maxWidth = 12 := by decide +kernel
  have hoverhang : (new 11).overhang 0 e.doc = 1 := by decide +kernel
  refine ⟨by decide +kernel, by decide +kernel, by omega, by omega, by omega⟩

end Printer

end SmallLisp
