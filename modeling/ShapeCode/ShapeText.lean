import ShapeCode.Numeral
import ShapeCode.Phrase
import ShapeCode.Tour

set_option autoImplicit false

/-!
# Shape text: a range on one line

Scalars and handles are written by name, records as `(a,b)`, unions as `tag` and their
id, runs and pointers with their contents between angle brackets, and resources with
their destructor handle in hexadecimal and their fields, if any, in parentheses.
Siblings are separated by commas.
-/

namespace ShapeCode.ShapeText

/-- What stands between siblings. -/
def separator : String := ","

/-- What opens the contents of a run. -/
def openRun : RunForm → String
  | .vec => "vec<"
  | .unboxedVec => "unboxed_vec<"
  | .slice _ => "slice<"
  | .fixedVec count => s!"fixedvec<{count.toNat}, "

/-- The text of a resource without its fields. -/
def resourceName (handle : UInt64) : String := "res@0x" ++ Numeral.hex handle.toNat

/-- Closes a group that could be written. -/
def close (s : String) : Except Fault Phrase → Except Fault Phrase
  | .error f => .error f
  | .ok p => .ok (p.finish s)

/-- Writes a range, or its first node if `single`. -/
def range (tables : Tables) : (single : Bool) → Outline → Phrase → Except Fault Phrase
  | single, .done, p => if single then .error Tour.missingNode else .ok p
  | _, .broken f, _ => .error f
  | single, .cons node inner rest, p =>
    let written : Except Fault Phrase :=
      match node with
      | .scalar s => .ok (p.leaf separator s.name)
      | .handle h => .ok (p.leaf separator h.name)
      | .union id => .ok (p.leaf separator s!"tag{id.toNat}")
      | .record _ => close ")" (range tables false inner (p.start separator "("))
      | .run form _ _ =>
        match inner.spacing tables with
        | .error f => .error f
        | .ok _ => close ">" (range tables true inner (p.start separator (openRun form)))
      | .pointer form _ =>
        close ">" (range tables true inner (p.start separator (form.sigil ++ "<")))
      | .resource id fields =>
        match tables.resource id with
        | .error f => .error f
        | .ok handle =>
          if fields.isEmpty then .ok (p.leaf separator (resourceName handle))
          else close ")"
            (range tables false inner (p.start separator (resourceName handle ++ "(")))
    match written with
    | .error f => .error f
    | .ok p => if single then .ok p else range tables false rest p

end ShapeCode.ShapeText

namespace ShapeCode

/-- The text of a range. -/
def Outline.text (tables : Tables) (o : Outline) : Except Fault String :=
  match ShapeText.range tables false o .empty with
  | .error f => .error f
  | .ok p => .ok p.text

end ShapeCode
