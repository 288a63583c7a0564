import ShapeCode.Word

set_option autoImplicit false

/-!
# Cursors: addresses that move together

A cursor is a list of lanes, one address each.  Every movement applies to all of them: a
walk over one value has one lane, a walk over two values in step has two, and the cursor
without lanes stays where it is.  Movements wrap around at the end of the address space;
rounding up to an alignment does not, and is a fault there.
-/

namespace ShapeCode

/-- One address per lane. -/
abbrev Cursor : Type := List Nat

namespace Cursor

/-- Every lane rounded up to an alignment. -/
def alignUp (c : Cursor) (align : Nat) : Except Fault Cursor :=
  c.mapM fun a => Word.alignUp a align

/-- Every lane moved forward. -/
def advance (c : Cursor) (n : Nat) : Cursor := c.map fun a => Word.wrap (a + n)

/-- The bytes from each lane to the end of the lane, or zero if it lies behind. -/
def distance (c stop : Cursor) : List Nat := c.zipWith (fun a e => e - a) stop

/-- Whether `n` more bytes fit before the end in every lane.  Nothing fits where
there is no lane. -/
def fits (c stop : Cursor) (n : Nat) : Bool :=
  !c.isEmpty && (c.distance stop).all fun d => n ≤ d

/-- The same value in every lane. -/
def splat {α : Type} (c : Cursor) (x : α) : List α := c.map fun _ => x

end Cursor

end ShapeCode
