import Mathlib.Data.List.AList
import Mathlib.Data.List.Sort
import SmallLisp.Proofs.Eval.Definitions
import SmallLisp.Proofs.Eval.Listing
import SmallLisp.Proofs.Intern.Callers

/-!
Bindings under ids. The names of an environment are held as ids of a table that all callers share: what is
assigned or looked up is the id of a name, and a listing makes names of the ids again and interns them
once more. If there are fewer texts than numbers, that is the listing by name, and nothing goes wrong.
-/
namespace SmallLisp

namespace Stack

variable {α : Type} {s below : Stack α} {a : α}

theorem pop?_eq_some_iff : s.pop? = some (a, below) ↔ s = a :: below := by
  cases s <;> simp [pop?]

end Stack

namespace InternTable

variable {t : InternTable} {text other : String} {id : InternId}

theorem intern_eq_enroll (t : InternTable) (text : String) : t.intern text = t.enroll text := by
  unfold intern enroll
  cases t.lookup? text <;> rfl

theorem intern_of_lookup? (h : t.lookup? text = some id) : t.intern text = (id, t) := by
  simp only [intern, h]

theorem size_enroll (t : InternTable) (text : String) :
    t.size ≤ (t.enroll text).2.size ∧ (t.enroll text).2.size ≤ t.size + 1 := by
  rcases enroll_cases t text with ⟨id, _, henroll⟩ | ⟨_, henroll⟩
  · rw [henroll]
    exact ⟨Nat.le_refl _, Nat.le_succ _⟩
  · rw [henroll]
    simp [size]

theorem Consistent.lookup?_inj (h : t.Consistent) (hsize : t.size ≤ UInt32.size)
    (htext : t.lookup? text = some id) (hother : t.lookup? other = some id) : text = other := by
  rw [← h.resolve?_iff hsize] at htext hother
  exact Option.some.inj (htext.symm.trans hother)

end InternTable

namespace Interning

variable {κ : Type} [DecidableEq κ] {s u : Interning κ}

theorem size_le_of_step (h : Step s u) : s.table.size ≤ u.table.size := by
  cases h with
  | found _ _ => exact Nat.le_refl _
  | missing _ _ => exact Nat.le_refl _
  | @enrolled _ text _ => exact (s.table.size_enroll text).1

theorem exists_returned [Nonempty κ] (s : Interning κ) (text : String) :
    ∃ u, Steps s u ∧ ∃ a ∈ u.returned, a.text = text := by
  obtain ⟨caller⟩ := ‹Nonempty κ›
  have hfree {s : Interning κ} (h : s.missed caller = none) :
      ∃ u, Steps s u ∧ ∃ a ∈ u.returned, a.text = text :=
    ⟨_, steps_intern h text, _, List.mem_cons_self, rfl⟩
  cases hmissed : s.missed caller with
  | none => exact hfree hmissed
  | some waiting =>
      obtain ⟨u, hstep, hu⟩ : ∃ u, Step s u ∧ u.missed caller = none :=
        ⟨_, .enrolled hmissed, Function.update_self caller none s.missed⟩
      obtain ⟨v, hv, hreturned⟩ := hfree hu
      exact ⟨v, .head hstep hv, hreturned⟩

end Interning

/-- A persistent map from ids to values, as it shows itself to its users. An iteration may go over the ids
in any order. -/
structure IdMap where
  Carrier : Type
  empty : Carrier
  get? : Carrier → InternId → Option Expr
  set : Carrier → InternId → Expr → Carrier
  keys : Carrier → List InternId
  get?_empty (id : InternId) : get? empty id = none
  get?_set (ids : Carrier) (id other : InternId) (value : Expr) :
    get? (set ids id value) other = if other = id then some value else get? ids other
  nodup_keys (ids : Carrier) : (keys ids).Nodup
  mem_keys_iff {ids : Carrier} {id : InternId} : id ∈ keys ids ↔ (get? ids id).isSome

def IdMap.entries : IdMap where
  Carrier := AList fun _ : InternId => Expr
  empty := ∅
  get? ids id := ids.lookup id
  set ids id value := ids.insert id value
  keys := AList.keys
  get?_empty _ := AList.lookup_empty _
  get?_set ids id other value := by
    split
    · next heq => rw [heq, AList.lookup_insert]
    · next hne => exact AList.lookup_insert_ne hne
  nodup_keys := AList.keys_nodup
  mem_keys_iff := AList.lookup_isSome.symm

variable {M : IdMap} {κ : Type}

structure Bindings.Agrees (t : InternTable) (b : Bindings) (ids : M.Carrier) : Prop where
  get?_eq (name : String) : b.get? name = (t.lookup? name).bind (M.get? ids)
  issued {id : InternId} : (M.get? ids id).isSome → ∃ name, t.lookup? name = some id

namespace Bindings.Agrees

variable {t : InternTable} {b : Bindings} {ids : M.Carrier}

theorem empty (t : InternTable) : Agrees t [] M.empty where
  get?_eq name := by
    cases t.lookup? name with
    | none => rfl
    | some id => exact (M.get?_empty id).symm
  issued h := by simp [M.get?_empty] at h

theorem set (h : Agrees t b ids) (ht : t.Consistent) (hsize : t.size ≤ UInt32.size) {name : String}
    {id : InternId} (hid : t.lookup? name = some id) (value : Expr) :
    Agrees t (b.set name value) (M.set ids id value) where
  get?_eq other := by
    rw [get?_set, h.get?_eq]
    cases hother : t.lookup? other with
    | none =>
        have hne : other ≠ name := by
          rintro rfl
          simp [hid] at hother
        rw [if_neg hne]
        rfl
    | some id' =>
        have hiff : other = name ↔ id' = id := by
          constructor
          · rintro rfl
            exact Option.some.inj (hother.symm.trans hid)
          · rintro rfl
            exact ht.lookup?_inj hsize hother hid
        simp only [Option.bind_some, M.get?_set, hiff]
  issued {id'} h' := by
    rw [M.get?_set] at h'
    split at h'
    · next heq => exact ⟨name, by rw [hid, heq]⟩
    · exact h.issued h'

theorem enroll (h : Agrees t b ids) (ht : t.Consistent) (text : String)
    (hsize : (t.enroll text).2.size ≤ UInt32.size) : Agrees (t.enroll text).2 b ids := by
  have hissued {id : InternId} (hid : (M.get? ids id).isSome) :
      ∃ name, t.lookup? name = some id ∧ (t.enroll text).2.lookup? name = some id := by
    obtain ⟨name, hname⟩ := h.issued hid
    exact ⟨name, hname, InternTable.lookup?_enroll_of_some hname text⟩
  refine ⟨fun name => ?_, fun hid => (hissued hid).imp fun _ hname => hname.2⟩
  rw [h.get?_eq]
  cases hname : t.lookup? name with
  | some id => rw [InternTable.lookup?_enroll_of_some hname]
  | none =>
      symm
      rw [Option.bind_none, Option.bind_eq_none_iff]
      intro id hid
      by_contra hbound
      obtain ⟨other, hother, hother'⟩ := hissued (Option.isSome_iff_ne_none.mpr hbound)
      obtain rfl := (ht.enroll text).lookup?_inj hsize hid hother'
      simp [hname] at hother

theorem exists_texts (ht : t.Consistent) (hsize : t.size ≤ UInt32.size) {keys : List InternId}
    (h : ∀ id ∈ keys, ∃ name, t.lookup? name = some id) :
    ∃ names, keys.mapM t.resolve? = some names ∧ names.map t.lookup? = keys.map some := by
  induction keys with
  | nil => exact ⟨[], rfl, rfl⟩
  | cons id keys ih =>
      obtain ⟨⟨name, hname⟩, hkeys⟩ := List.forall_mem_cons.mp h
      obtain ⟨names, hnames, hlookup⟩ := ih hkeys
      refine ⟨name :: names, ?_, by rw [List.map_cons, List.map_cons, hname, hlookup]⟩
      simp [List.mapM_cons, (ht.resolve?_iff hsize).mpr hname, hnames]

theorem mem_texts_iff (ht : t.Consistent) (hsize : t.size ≤ UInt32.size) {keys : List InternId}
    {names : List String} (h : names.map t.lookup? = keys.map some) {name : String} :
    name ∈ names ↔ ∃ id ∈ keys, t.lookup? name = some id := by
  constructor
  · intro hname
    have hkey := List.mem_map_of_mem (f := t.lookup?) hname
    rw [h] at hkey
    obtain ⟨id, hid, heq⟩ := List.mem_map.mp hkey
    exact ⟨id, hid, heq.symm⟩
  · rintro ⟨id, hid, hname⟩
    have hkey : some id ∈ names.map t.lookup? := h ▸ List.mem_map_of_mem hid
    obtain ⟨other, hother, heq⟩ := List.mem_map.mp hkey
    rwa [ht.lookup?_inj hsize hname heq]

theorem names_eq (h : Agrees t b ids) (ht : t.Consistent) (hsize : t.size ≤ UInt32.size) :
    ((M.keys ids).mapM t.resolve?).map (·.mergeSort fun m n => m ≤ n) = some b.names := by
  obtain ⟨names, hnames, hlookup⟩ :=
    exists_texts ht hsize fun id hid => h.issued (M.mem_keys_iff.mp hid)
  have hnodup : names.Nodup := by
    refine List.Nodup.of_map t.lookup? ?_
    rw [hlookup]
    exact (M.nodup_keys ids).map fun _ _ => Option.some.inj
  rw [hnames, Option.map_some, Option.some_inj]
  refine (Text.mergeSort_ascending hnodup).eq_of_mem_iff b.names_ascending fun name => ?_
  rw [List.mem_mergeSort, mem_texts_iff ht hsize hlookup, mem_names_iff, h.get?_eq]
  cases t.lookup? name with
  | none => simp
  | some id => simp [M.mem_keys_iff]

theorem get?_intern (h : Agrees t b ids) (ht : t.Consistent) (hsize : t.size < UInt32.size)
    (name : String) : M.get? ids (t.intern name).1 = b.get? name := by
  have hsize' := (t.size_enroll name).2.trans hsize
  rw [InternTable.intern_eq_enroll, (h.enroll ht name hsize').get?_eq, InternTable.lookup?_enroll,
    if_pos rfl, Option.bind_some]

end Bindings.Agrees

structure InternedStack (M : IdMap) (κ : Type) where
  symbols : Interning κ
  current : M.Carrier
  saved : Stack M.Carrier

namespace InternedStack

def enter (s : InternedStack M κ) : InternedStack M κ := { s with saved := s.saved.push s.current }

def leave? (s : InternedStack M κ) : Option (InternedStack M κ) :=
  s.saved.pop?.map fun (ids, saved) => { s with current := ids, saved := saved }

def assign (s : InternedStack M κ) (id : InternId) (value : Expr) : InternedStack M κ :=
  { s with current := M.set s.current id value }

def find (s : InternedStack M κ) (name : String) : Option Expr :=
  M.get? s.current (s.symbols.table.intern name).1

/-- The bound names in ascending order, unless an id is bound that has no name. -/
def names? (s : InternedStack M κ) : Option (List String) :=
  ((M.keys s.current).mapM s.symbols.table.resolve?).map (·.mergeSort fun m n => m ≤ n)

def lines? (ids : M.Carrier) : InternTable → List String → Option (List String)
  | _, [] => some []
  | t, name :: names => do
      let (id, t') := t.intern name
      let value ← M.get? ids id
      let lines ← lines? ids t' names
      pure (s!"{name} = {value.text}\n" :: lines)

def listing? (s : InternedStack M κ) : Option String := do
  let names ← s.names?
  let lines ← lines? s.current s.symbols.table names
  pure (s!"depth {s.saved.length}\n" ++ String.join lines)

/-- The environment that a stack holds. Both are empty at first, and then the same is done to both; in
between, callers may intern what they like. -/
inductive Holds [DecidableEq κ] : InternedStack M κ → Env → Prop
  | start {stamp : UInt32} {symbols : Interning κ} :
      Interning.Steps (.start stamp) symbols → Holds ⟨symbols, M.empty, .empty⟩ .empty
  | interned {s : InternedStack M κ} {env : Env} {symbols : Interning κ} :
      Holds s env → Interning.Step s.symbols symbols → Holds { s with symbols := symbols } env
  | entered {s : InternedStack M κ} {env : Env} : Holds s env → Holds s.enter env.enter
  | left {s s' : InternedStack M κ} {env env' : Env} :
      Holds s env → s.leave? = some s' → env.leave? = some env' → Holds s' env'
  | assigned {s : InternedStack M κ} {env : Env} {symbol : InternCall κ} (value : Expr) :
      Holds s env → symbol ∈ s.symbols.returned →
      Holds (s.assign symbol.id value) (env.assign symbol.text value)

structure Shows (s : InternedStack M κ) (env : Env) : Prop where
  names : s.names? = some env.names
  find (name : String) : s.find name = env.lookup? name
  listing : s.listing? = some (Session.stackListing env)

variable {s : InternedStack M κ} {env : Env}

structure Mirrors (s : InternedStack M κ) (env : Env) : Prop where
  current : Bindings.Agrees s.symbols.table env.current s.current
  saved : List.Forall₂ (Bindings.Agrees s.symbols.table) env.saved s.saved

theorem Mirrors.left {s' : InternedStack M κ} {env' : Env} (h : s.Mirrors env)
    (hs : s.leave? = some s') (henv : env.leave? = some env') : s'.Mirrors env' := by
  obtain ⟨⟨ids, below⟩, hpop, rfl⟩ := Option.map_eq_some_iff.mp hs
  obtain ⟨⟨b, below'⟩, hpop', rfl⟩ := Option.map_eq_some_iff.mp henv
  have hsaved := h.saved
  rw [Stack.pop?_eq_some_iff.mp hpop, Stack.pop?_eq_some_iff.mp hpop', List.forall₂_cons] at hsaved
  exact ⟨hsaved.1, hsaved.2⟩

variable [DecidableEq κ]

theorem Mirrors.interned (h : s.Mirrors env) (hs : s.symbols.Sound) {symbols : Interning κ}
    (hstep : Interning.Step s.symbols symbols) (hsize : symbols.table.size ≤ UInt32.size) :
    Mirrors { s with symbols := symbols } env := by
  cases hstep with
  | found _ _ => exact ⟨h.current, h.saved⟩
  | missing _ _ => exact ⟨h.current, h.saved⟩
  | @enrolled _ text _ =>
      exact ⟨h.current.enroll hs.consistent text hsize,
        h.saved.imp fun _ _ hagrees => hagrees.enroll hs.consistent text hsize⟩

theorem Holds.exists_stamp (h : s.Holds env) : ∃ stamp, Interning.Steps (.start stamp) s.symbols := by
  induction h with
  | @start stamp _ hsteps => exact ⟨stamp, hsteps⟩
  | interned _ hstep ih => exact ih.imp fun _ hsteps => hsteps.tail hstep
  | entered _ ih => exact ih
  | left _ hs _ ih =>
      obtain ⟨_, _, rfl⟩ := Option.map_eq_some_iff.mp hs
      exact ih
  | assigned _ _ _ ih => exact ih

theorem Holds.sound (h : s.Holds env) : s.symbols.Sound := by
  obtain ⟨stamp, hsteps⟩ := h.exists_stamp
  exact (Interning.sound_start stamp).steps hsteps

theorem Holds.fresh (h : s.Holds env) : Holds (M := M) ⟨s.symbols, M.empty, .empty⟩ .empty := by
  obtain ⟨stamp, hsteps⟩ := h.exists_stamp
  exact .start hsteps

theorem Holds.mirrors (h : s.Holds env) (hsize : s.symbols.table.size ≤ UInt32.size) :
    s.Mirrors env := by
  induction h with
  | start _ => exact ⟨.empty _, .nil⟩
  | interned hheld hstep ih =>
      exact (ih ((Interning.size_le_of_step hstep).trans hsize)).interned hheld.sound hstep hsize
  | entered _ ih => exact ⟨(ih hsize).current, .cons (ih hsize).current (ih hsize).saved⟩
  | left _ hs henv ih =>
      obtain ⟨_, _, rfl⟩ := Option.map_eq_some_iff.mp hs
      exact (ih hsize).left hs henv
  | @assigned _ _ symbol value hheld hsymbol ih =>
      have hid := hheld.sound.lookup?_iff.mpr ⟨symbol, hsymbol, rfl, rfl⟩
      exact ⟨(ih hsize).current.set hheld.sound.consistent hsize hid value, (ih hsize).saved⟩

theorem lines?_eq {t : InternTable} {b : Bindings} {ids : M.Carrier} (h : b.Agrees t ids)
    {entries : List (String × Expr)} (hentries : ∀ e ∈ entries, b.get? e.1 = some e.2) :
    lines? ids t (entries.map (·.1)) = some (entries.map fun e => s!"{e.1} = {e.2.text}\n") := by
  induction entries with
  | nil => rfl
  | cons e entries ih =>
      obtain ⟨he, hrest⟩ := List.forall_mem_cons.mp hentries
      obtain ⟨id, hid, hvalue⟩ := Option.bind_eq_some_iff.mp ((h.get?_eq e.1).symm.trans he)
      simp [lines?, InternTable.intern_of_lookup? hid, hvalue, ih hrest]

theorem Holds.shows (h : s.Holds env) (hsize : s.symbols.table.size < UInt32.size) : s.Shows env := by
  have hmirrors := h.mirrors (Nat.le_of_lt hsize)
  have hconsistent := h.sound.consistent
  have hnames : s.names? = some env.names := hmirrors.current.names_eq hconsistent (Nat.le_of_lt hsize)
  obtain ⟨entries, hentries, hbound, hlisting⟩ := env.listed.shown
  refine ⟨hnames, hmirrors.current.get?_intern hconsistent hsize, ?_⟩
  have hlines := lines?_eq hmirrors.current hbound
  rw [hentries] at hlines
  have hdepth : s.saved.length = env.depth := hmirrors.saved.length_eq.symm
  rw [listing?, hnames, hlisting, ← hdepth]
  simp [hlines]

theorem Holds.steps (h : s.Holds env) {symbols : Interning κ}
    (hsteps : Interning.Steps s.symbols symbols) : Holds { s with symbols := symbols } env := by
  induction hsteps with
  | refl => exact h
  | tail _ hstep ih => exact ih.interned hstep

theorem Holds.assignAll [Nonempty κ] (h : s.Holds env) (defs : List (String × Expr)) :
    ∃ s' : InternedStack M κ, Interning.Steps s.symbols s'.symbols ∧ s'.Holds (env.assignAll defs) := by
  induction defs generalizing s env with
  | nil => exact ⟨s, .refl, h⟩
  | cons d defs ih =>
      obtain ⟨symbols, hsteps, symbol, hsymbol, hname⟩ := s.symbols.exists_returned d.1
      have hassigned := (h.steps hsteps).assigned d.2 hsymbol
      rw [hname] at hassigned
      obtain ⟨s', hsteps', hholds⟩ := ih hassigned
      exact ⟨s', hsteps.trans hsteps', hholds⟩

end InternedStack

end SmallLisp
