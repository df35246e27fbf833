import SmallLisp.Layout.Printer

namespace SmallLisp

namespace Doc

/-- What stands before an item: nothing if it is the first one. -/
inductive Gap : Bool → List Char → Prop
  | first : Gap true []
  | space : Gap false [' ']
  | line (n : Nat) : Gap false ('\n' :: List.replicate n ' ')

mutual

inductive Laid : Doc → List Char → Prop
  | word (text : String) (isName : Bool) : Laid (.word text isName) text.toList
  | list {items : List Doc} {cs : List Char} :
      LaidItems true items cs → Laid (.list items) ('(' :: (cs ++ [')']))
  | map {entries : List (Doc × Doc)} {cs : List Char} :
      LaidItems true (entries.flatMap fun e => [e.1, e.2]) cs → Laid (.map entries) ('{' :: (cs ++ ['}']))

inductive LaidItems : Bool → List Doc → List Char → Prop
  | nil {isFirst : Bool} : LaidItems isFirst [] []
  | cons {isFirst : Bool} {d : Doc} {ds : List Doc} {gap cs rest : List Char} :
      Gap isFirst gap → Laid d cs → LaidItems false ds rest →
      LaidItems isFirst (d :: ds) (gap ++ (cs ++ rest))

end

theorem flats_eq_map (ds : List Doc) : flats ds = ds.map flat := by
  induction ds with
  | nil => rfl
  | cons d ds ih => simp [flats, ih]

theorem entryFlats_eq_map (es : List (Doc × Doc)) :
    entryFlats es = (es.flatMap fun e => [e.1, e.2]).map flat := by
  induction es with
  | nil => rfl
  | cons e es ih => simp [entryFlats, ih]

theorem laidItems_spaced {ds : List Doc} (h : ∀ d ∈ ds, d.Laid d.flat.toList) :
    LaidItems true ds (Text.spaced (ds.map flat)).toList := by
  have hrest (d : Doc) (ds : List Doc) (h : ∀ e ∈ d :: ds, e.Laid e.flat.toList) :
      LaidItems false (d :: ds) (' ' :: (Text.spaced ((d :: ds).map flat)).toList) := by
    induction ds generalizing d with
    | nil =>
        have hd := LaidItems.cons .space (h d (by simp)) .nil
        simpa using hd
    | cons e es ih =>
        obtain ⟨hd, hes⟩ := List.forall_mem_cons.mp h
        have hcons := LaidItems.cons .space hd (ih e hes)
        simpa using hcons
  match ds with
  | [] => exact .nil
  | [d] =>
      have hd := LaidItems.cons .first (h d (by simp)) .nil
      simpa using hd
  | d :: e :: es =>
      obtain ⟨hd, hes⟩ := List.forall_mem_cons.mp h
      have hcons := LaidItems.cons .first hd (hrest e es hes)
      simpa using hcons

mutual

theorem laid_flat (d : Doc) : d.Laid d.flat.toList := by
  match d with
  | .word text isName => exact .word text isName
  | .list items =>
      have hlist := Laid.list (laidItems_spaced (laid_flats items))
      simpa [flat, flats_eq_map, Text.bracketed] using hlist
  | .map entries =>
      have hmap := Laid.map (laidItems_spaced (laid_entryFlats entries))
      simpa [flat, entryFlats_eq_map, Text.bracketed] using hmap

theorem laid_flats (ds : List Doc) : ∀ d ∈ ds, d.Laid d.flat.toList := by
  match ds with
  | [] => simp
  | d :: ds => exact List.forall_mem_cons.mpr ⟨laid_flat d, laid_flats ds⟩

theorem laid_entryFlats (es : List (Doc × Doc)) :
    ∀ d ∈ es.flatMap fun e => [e.1, e.2], d.Laid d.flat.toList := by
  match es with
  | [] => simp
  | (k, v) :: es =>
      rw [List.flatMap_cons]
      refine List.forall_mem_append.mpr ⟨?_, laid_entryFlats es⟩
      simp [laid_flat k, laid_flat v]

end

end Doc

namespace Page

/-- The lines with newlines between them; the line being written comes first. -/
def joined : Stack String → List Char
  | [] => []
  | [line] => line.toList
  | line :: above :: lines => joined (above :: lines) ++ '\n' :: line.toList

structure Wrote (p : Page) (cs : List Char) (q : Page) : Prop where
  started : q.lines ≠ []
  joined : joined q.lines = joined p.lines ++ cs

variable {p q r : Page}

theorem Wrote.trans {cs ds : List Char} (h : p.Wrote cs q) (k : q.Wrote ds r) :
    p.Wrote (cs ++ ds) r :=
  ⟨k.started, by rw [k.joined, h.joined, List.append_assoc]⟩

theorem wrote_write (p : Page) (s : String) : p.Wrote s.toList (p.write s) := by
  obtain ⟨indent, lines⟩ := p
  match lines with
  | [] => exact ⟨List.cons_ne_nil _ _, rfl⟩
  | [line] => exact ⟨List.cons_ne_nil _ _, by simp [write, joined]⟩
  | line :: above :: lines => exact ⟨List.cons_ne_nil _ _, by simp [write, joined]⟩

theorem toList_margin (indent : Int) :
    (margin indent).toList = List.replicate (indent.toNat * 3) ' ' := by
  have hlevel : level = List.replicate 3 ' ' := rfl
  rw [margin, String.toList_ofList, hlevel, List.flatten_replicate_replicate]

theorem wrote_newLine (h : p.lines ≠ []) (levels : Int) :
    p.Wrote ('\n' :: (margin (p.indent + levels)).toList) (p.indentBy levels).newLine := by
  obtain ⟨indent, lines⟩ := p
  cases lines with
  | nil => exact absurd rfl h
  | cons line lines => exact ⟨List.cons_ne_nil _ _, rfl⟩

theorem toList_text (h : p.lines ≠ []) : p.text.toList = joined p.lines ++ ['\n'] := by
  have hjoin (line : String) (lines : List String) :
      (line :: lines).reverse.flatMap (fun l => l.toList ++ ['\n']) =
        joined (line :: lines) ++ ['\n'] := by
    induction lines generalizing line with
    | nil => simp [joined]
    | cons above lines ih =>
        rw [List.reverse_cons, List.flatMap_append, ih]
        simp [joined]
  obtain ⟨line, lines, hlines⟩ := List.exists_cons_of_ne_nil h
  rw [text, hlines, String.toList_join, Stack.bottomUp, List.flatMap_map, ← hjoin]
  simp

end Page

namespace Printer

open Doc

variable {p : Printer} {page : Page}

theorem wrote_place {broken isFirst : Bool} (hb : broken = true → isFirst = false) (indent : Nat)
    {put : Page → Page} {L : List Char → Prop}
    (hput : ∀ page : Page, ∃ cs, L cs ∧ page.Wrote cs (put page)) (hpage : page.lines ≠ []) :
    ∃ gap cs, Gap isFirst gap ∧ L cs ∧
      page.Wrote (gap ++ cs) (place broken isFirst indent put page) := by
  cases broken with
  | true =>
      obtain rfl := hb rfl
      have hline := Page.wrote_newLine hpage indent
      rw [Page.toList_margin] at hline
      obtain ⟨cs, hcs, hwrote⟩ := hput (page.indentBy indent).newLine
      have hall := hline.trans hwrote
      exact ⟨_, cs, .line _, hcs, hall.started, hall.joined⟩
  | false =>
      cases isFirst with
      | true =>
          obtain ⟨cs, hcs, hwrote⟩ := hput page
          exact ⟨[], cs, .first, hcs, hwrote⟩
      | false =>
          obtain ⟨cs, hcs, hwrote⟩ := hput (page.write " ")
          exact ⟨[' '], cs, .space, hcs, (page.wrote_write " ").trans hwrote⟩

theorem breaks_priorityAt {r : HeadRule} (hr : 0 < r.inline) {round i : Nat}
    (h : breaks round (r.priorityAt i) = true) : (i == 0) = false := by
  have hi : ¬i < r.inline := by
    intro hi
    simp [HeadRule.priorityAt, hi, breaks] at h
  have hne : i ≠ 0 := by omega
  simpa using hne

theorem breaks_keyPriority {round i : Nat} (h : breaks round (keyPriority i) = true) :
    (i == 0) = false := by
  have hne : i ≠ 0 := by
    rintro rfl
    simp [keyPriority, breaks] at h
  simpa using hne

mutual

theorem laid_put (hp : ∀ r ∈ p.rules, 0 < r.inline) (round : Nat) (d : Doc) (page : Page) :
    ∃ cs, d.Laid cs ∧ page.Wrote cs (put p round d page) := by
  match d with
  | .word text isName => exact ⟨_, .word text isName, page.wrote_write text⟩
  | .list items =>
      rw [put]
      have hopen := page.wrote_write "("
      split
      · next r hfind =>
          have hr := hp r (List.mem_of_find?_eq_some hfind)
          obtain ⟨cs, hcs, hitems⟩ := laid_putItems hp (roundFor p.width round page (.list items)) hr 0
            items hopen.started
          have hall := (hopen.trans hitems).trans (Page.wrote_write _ ")")
          exact ⟨_, .list hcs, by simpa using hall⟩
      · exact ⟨_, laid_flat _, page.wrote_write _⟩
  | .map entries =>
      rw [put]
      have hopen := page.wrote_write "\x7b"
      obtain ⟨cs, hcs, hentries⟩ := laid_putEntries hp (roundFor p.width round page (.map entries)) 0
        entries hopen.started
      have hall := (hopen.trans hentries).trans (Page.wrote_write _ "\x7d")
      exact ⟨_, .map hcs, by simpa using hall⟩

theorem laid_putItems (hp : ∀ r ∈ p.rules, 0 < r.inline) (round : Nat) {r : HeadRule}
    (hr : 0 < r.inline) (i : Nat) (ds : List Doc) {page : Page} (hpage : page.lines ≠ []) :
    ∃ cs, LaidItems (i == 0) ds cs ∧ page.Wrote cs (putItems p round r i ds page) := by
  match ds with
  | [] => exact ⟨[], .nil, hpage, by simp [putItems]⟩
  | d :: ds =>
      obtain ⟨gap, cs, hgap, hcs, hd⟩ := wrote_place (breaks_priorityAt hr) (r.indentAt i)
        (laid_put hp round d) hpage
      obtain ⟨rest, hrest, hds⟩ := laid_putItems hp round hr (i + 1) ds hd.started
      exact ⟨_, .cons hgap hcs hrest, by simpa [putItems] using hd.trans hds⟩

theorem laid_putEntries (hp : ∀ r ∈ p.rules, 0 < r.inline) (round i : Nat) (es : List (Doc × Doc))
    {page : Page} (hpage : page.lines ≠ []) :
    ∃ cs, LaidItems (i == 0) (es.flatMap fun e => [e.1, e.2]) cs ∧
      page.Wrote cs (putEntries p round i es page) := by
  match es with
  | [] => exact ⟨[], .nil, hpage, by simp [putEntries]⟩
  | (k, v) :: es =>
      obtain ⟨kgap, kcs, hkgap, hkcs, hk⟩ := wrote_place breaks_keyPriority 1
        (laid_put hp round k) hpage
      obtain ⟨vgap, vcs, hvgap, hvcs, hv⟩ := wrote_place (fun _ => rfl) 0 (laid_put hp round v)
        hk.started
      obtain ⟨rest, hrest, hes⟩ := laid_putEntries hp round (i + 1) es hv.started
      refine ⟨_, .cons hkgap hkcs (.cons hvgap hvcs hrest), ?_⟩
      simpa [putEntries] using (hk.trans hv).trans hes

end

theorem laid_fitting (hp : ∀ r ∈ p.rules, 0 < r.inline) (d : Doc) (more round : Nat) :
    ∃ cs, d.Laid cs ∧ Page.blank.Wrote cs (fitting p d more round) := by
  induction more generalizing round with
  | zero => exact laid_put hp round d .blank
  | succ more ih =>
      rw [fitting]
      split
      · exact laid_put hp round d .blank
      · exact ih (round + 1)

theorem laid_format (hp : ∀ r ∈ p.rules, 0 < r.inline) (e : Expr) :
    ∃ cs, e.doc.Laid cs ∧ (p.format e).toList = cs ++ ['\n'] := by
  obtain ⟨cs, hcs, hwrote⟩ := laid_fitting hp e.doc lastRound 0
  exact ⟨cs, hcs, (Page.toList_text hwrote.started).trans (by rw [hwrote.joined]; rfl)⟩

theorem inline_standard : ∀ r ∈ HeadRule.standard, 0 < r.inline := by
  decide

end Printer

end SmallLisp
