import SmallLisp.Source.File

namespace SmallLisp

structure Site where
  span : Option Span
  file : Option FileRef
deriving DecidableEq, Repr

/-- The places of an expression, the oldest first: where it was written, then each reference through
which it was reached. Nothing is known of an expression without places. -/
abbrev Provenance := List Site

namespace Provenance

def written (file : Option FileRef) (span : Span) : Provenance := [⟨some span, file⟩]

def via (p later : Provenance) : Provenance := p ++ later

def spans (p : Provenance) : List Span := p.filterMap (·.span)

def first? (p : Provenance) : Option Span := p.findSome? (·.span)

def firstIn? (p : Provenance) (file : FileRef) : Option Span :=
  p.findSome? fun site => if site.file = some file then site.span else none

@[simp] theorem via_nil (p : Provenance) : p.via [] = p := List.append_nil p

@[simp] theorem nil_via (p : Provenance) : via [] p = p := rfl

theorem via_assoc (p q r : Provenance) : (p.via q).via r = p.via (q.via r) :=
  List.append_assoc p q r

theorem spans_via (p q : Provenance) : (p.via q).spans = p.spans ++ q.spans := by
  simp [via, spans, List.filterMap_append]

end Provenance

end SmallLisp
