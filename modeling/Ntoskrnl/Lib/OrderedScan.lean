/-
# Ntoskrnl.Lib.OrderedScan -- going through a collection that changes

A scan answers the items of a collection one by one while items come and go.  Every
answer is the least of the live items that are still to come, which is all of them
above a floor at first and then those above the last answer.  That is enough for the
answers to be strictly increasing and for no item that stays live to be missed.
-/
import Mathlib.Tactic.Common

namespace Ntoskrnl.Lib.OrderedScan

set_option autoImplicit false

variable {ι : Type}

/-- What a scan has still to answer; the last answer comes first. -/
def ToCome (lower : ι → ι → Prop) (floor : ι → Prop) : List ι → ι → Prop
  | [], x => floor x
  | last :: _, x => lower last x

/-- An answer is the least of the live items still to come. -/
inductive Answers (lower : ι → ι → Prop) (live toCome : ι → Prop) : Option ι → Prop where
  | finished (nothing : ∀ x, live x → ¬ toCome x) : Answers lower live toCome none
  | next (x : ι) (alive : live x) (ahead : toCome x)
      (least : ∀ y, live y → toCome y → y = x ∨ lower x y) : Answers lower live toCome (some x)

/-- A scan: the live items, those that have been live all the time, and the answers. -/
inductive Scan (lower : ι → ι → Prop) (floor : ι → Prop) :
    (ι → Prop) → (ι → Prop) → List ι → Bool → Prop where
  | start (live : ι → Prop) : Scan lower floor live live [] false
  | change {live live' stays stays' : ι → Prop} {answers : List ι} {ended : Bool}
      (scan : Scan lower floor live stays answers ended)
      (staying : ∀ x, stays' x → stays x ∧ live' x) : Scan lower floor live' stays' answers ended
  | answer {live stays : ι → Prop} {answers : List ι}
      (scan : Scan lower floor live stays answers false) (x : ι)
      (right : Answers lower live (ToCome lower floor answers) (some x)) :
      Scan lower floor live stays (x :: answers) false
  | finish {live stays : ι → Prop} {answers : List ι}
      (scan : Scan lower floor live stays answers false)
      (right : Answers lower live (ToCome lower floor answers) none) :
      Scan lower floor live stays answers true

variable {lower : ι → ι → Prop} {floor live stays : ι → Prop} {answers : List ι} {ended : Bool}
  {x : ι}

theorem Scan.staying (scan : Scan lower floor live stays answers ended) :
    ∀ x, stays x → live x := by
  induction scan with
  | start => exact fun x alive => alive
  | change scan staying => exact fun x stays => (staying x stays).2
  | answer scan x right ih => exact ih
  | finish scan right ih => exact ih

/-- **The answers are strictly increasing.** -/
theorem Scan.increasing (transitive : ∀ {a b c}, lower a b → lower b c → lower a c)
    (scan : Scan lower floor live stays answers ended) :
    answers.Pairwise fun later earlier => lower earlier later := by
  induction scan with
  | start => exact .nil
  | change scan staying ih => exact ih
  | finish scan right ih => exact ih
  | @answer live stays answers scan x right ih =>
    refine List.pairwise_cons.mpr ⟨fun earlier mem => ?_, ih⟩
    cases right with
    | next x alive ahead =>
      cases answers with
      | nil => simp at mem
      | cons =>
        rcases List.mem_cons.mp mem with rfl | mem
        · exact ahead
        · exact transitive ((List.pairwise_cons.mp ih).1 earlier mem) ahead

/-- An item that stays has been answered or is still to come, and after the end it has been
answered. -/
theorem Scan.accounted (scan : Scan lower floor live stays answers ended) (stays : stays x)
    (above : floor x) : x ∈ answers ∨ (ended = false ∧ ToCome lower floor answers x) := by
  induction scan with
  | start => exact .inr ⟨rfl, above⟩
  | change scan staying ih => exact ih (staying x stays).1
  | @answer live stays' answers scan y right ih =>
    rcases ih stays with mem | ⟨-, ahead⟩
    · exact .inl (List.mem_cons_of_mem y mem)
    · cases right with
      | next y alive _ least =>
        rcases least x (scan.staying x stays) ahead with rfl | higher
        · exact .inl (List.mem_cons_self ..)
        · exact .inr ⟨rfl, higher⟩
  | finish scan right ih =>
    rcases ih stays with mem | ⟨-, ahead⟩
    · exact .inl mem
    · obtain ⟨nothing⟩ := right
      exact absurd ahead (nothing x (scan.staying x stays))

/-- **No item that stays is missed.** -/
theorem Scan.complete (scan : Scan lower floor live stays answers true) (staying : stays x)
    (above : floor x) : x ∈ answers :=
  (scan.accounted staying above).resolve_right fun ahead => absurd ahead.1 (by simp)

end Ntoskrnl.Lib.OrderedScan
