import ShapeCode.Node

set_option autoImplicit false

/-!
# Outlines: a range with every nested range read

The outline of a range lists its nodes in order, each together with the outline of its
nested range.  Where the bytes stop being shape bytecode the outline breaks off with the
fault that reading them there gives; a walk that never gets that far never meets it.
Every operation on shapes is a recursion on outlines, and only unions lead out of them,
to the union table.

`Outline.ofBytes` builds the nodes of one range in a loop; `ofBytes_of_read` and
`ofBytes_of_fault` are the equations a reader expects of it.
-/

namespace ShapeCode

/-- The nodes of a range, each with the outline of its nested range. -/
inductive Outline where
  /-- The range ends. -/
  | done
  /-- The range breaks off. -/
  | broken (fault : Fault)
  | cons (node : Node) (inner rest : Outline)
  deriving DecidableEq, Repr, Inhabited

namespace Outline

/-- Puts nodes, kept newest first, before an outline. -/
def prepend (before : List (Node × Outline)) (tail : Outline) : Outline :=
  before.foldl (fun tail n => .cons n.1 n.2 tail) tail

/-- The outline of `bs` after the nodes in `before`, which are kept newest first. -/
def collect (bs : Bytes) (before : List (Node × Outline)) : Outline :=
  if bs = [] then prepend before .done
  else
    match _ : Node.read bs with
    | .error f => prepend before (.broken f)
    | .ok (n, rest) => collect rest ((n, collect n.nested []) :: before)
termination_by bs.length
decreasing_by
  all_goals
    have := Node.length_read ‹Node.read bs = .ok _›
    omega

/-- The outline of a range. -/
def ofBytes (bs : Bytes) : Outline := collect bs []

theorem collect_eq_prepend (bs : Bytes) (before : List (Node × Outline)) :
    collect bs before = prepend before (ofBytes bs) := by
  unfold ofBytes
  generalize hlen : bs.length = len
  induction len using Nat.strongRecOn generalizing bs before with
  | _ len ih =>
    rw [collect]
    conv => rhs; rw [collect]
    by_cases hnil : bs = []
    · simp [hnil, prepend]
    · rw [if_neg hnil, if_neg hnil]
      split
      · simp [prepend]
      · rename_i n rest hread
        have hlt := Node.length_read hread
        rw [ih rest.length (by omega) rest _ rfl, ih rest.length (by omega) rest [_] rfl]
        simp [prepend]

@[simp] theorem ofBytes_nil : ofBytes [] = .done := by
  rw [ofBytes, collect]
  simp [prepend]

/-- A range that starts with a node is that node and the outline of what follows. -/
theorem ofBytes_of_read {bs rest : Bytes} {n : Node} (h : Node.read bs = .ok (n, rest)) :
    ofBytes bs = .cons n (ofBytes n.nested) (ofBytes rest) := by
  have hne : bs ≠ [] := by
    rintro rfl
    cases h
  rw [ofBytes, collect, if_neg hne]
  split
  · rename_i f hf
    rw [h] at hf
    cases hf
  · rename_i n' rest' hread
    obtain ⟨rfl, rfl⟩ := Prod.mk.inj (Except.ok.inj (h.symm.trans hread))
    rw [collect_eq_prepend]
    rfl

/-- A range that holds bytes but starts with no node breaks off at once. -/
theorem ofBytes_of_fault {bs : Bytes} {f : Fault} (hne : bs ≠ [])
    (h : Node.read bs = .error f) : ofBytes bs = .broken f := by
  rw [ofBytes, collect, if_neg hne]
  split
  · rename_i f' hf
    obtain rfl := Except.error.inj (h.symm.trans hf)
    rfl
  · rename_i hread
    rw [h] at hread
    cases hread

end Outline

end ShapeCode
