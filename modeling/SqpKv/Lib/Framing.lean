import Mathlib.Data.List.Basic

/-!
# Frames

A stream without lengths in front of its messages marks where a message ends on
its pieces: `ends p` says that `p` is the last piece of one.  A `Frame` is the
pieces of one message, an `Open` list those of a message that has only begun.
A reader that stops behind the first piece that ends takes exactly a frame:

    xs ++ p :: ys a frame  →  xs open, and p ends it iff ys = []      (Frame.split)
-/

namespace Framing

variable {β : Type} {ends : β → Prop}

/-- The pieces of one message. -/
inductive Frame (ends : β → Prop) : List β → Prop
  | last {p : β} : ends p → Frame ends [p]
  | more {p : β} {ps : List β} : ¬ ends p → Frame ends ps → Frame ends (p :: ps)

/-- No message ends here. -/
def Open (ends : β → Prop) (ps : List β) : Prop := ∀ p ∈ ps, ¬ ends p

@[simp] theorem open_nil : Open ends [] := fun _ hp => nomatch hp

theorem Open.left {xs ys : List β} (h : Open ends (xs ++ ys)) : Open ends xs :=
  fun p hp => h p (List.mem_append_left _ hp)

theorem Frame.ne_nil {ps : List β} (h : Frame ends ps) : ps ≠ [] := by
  cases h with
  | last _ => exact List.cons_ne_nil _ _
  | more _ _ => exact List.cons_ne_nil _ _

/-- The piece behind `xs` ends the frame when nothing is left of it. -/
theorem Frame.split {xs ys : List β} {p : β} (h : Frame ends (xs ++ p :: ys)) :
    Open ends xs ∧ (ends p ↔ ys = []) := by
  induction xs with
  | nil =>
    refine ⟨open_nil, ?_⟩
    cases h with
    | last hp => exact iff_of_true hp rfl
    | more hp hps => exact iff_of_false hp hps.ne_nil
  | cons x xs ih =>
    have hrest : ¬ ends x ∧ Frame ends (xs ++ p :: ys) := by
      generalize hps : x :: xs ++ p :: ys = ps at h
      cases h with
      | last _ =>
        have hnil : xs ++ p :: ys = [] := (List.cons.inj hps).2
        rw [List.append_eq_nil_iff] at hnil
        exact absurd hnil.2 (List.cons_ne_nil _ _)
      | more hx hframe =>
        obtain ⟨rfl, rfl⟩ := List.cons.inj hps
        exact ⟨hx, hframe⟩
    obtain ⟨hopen, hlast⟩ := ih hrest.2
    refine ⟨?_, hlast⟩
    intro q hq
    rcases List.mem_cons.1 hq with rfl | hq
    · exact hrest.1
    · exact hopen q hq

end Framing
