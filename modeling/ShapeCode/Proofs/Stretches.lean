import Mathlib.Data.List.Forall2
import ShapeCode.Walk

set_option autoImplicit false

/-!
# Walks in step

A walk that goes inside every node leaves a trail: the nodes it visited and where, in
order, and why it stopped short if it did.  `Scene.trail` is that trail.  A walk that
records nodes returns it, or the reason alone if it stopped short (`Walk.run_recorder`).

Such a walk goes through one stretch after another: a range, or one value of it, from a
cursor on.  What it comes to inside a node is a list of stretches (`Scene.within`), so
its trail is a recursion over stretches and nothing else (`Stretch.trail_cons`,
`Stretch.trailWithin_of_not_union`, `Stretch.trailWithin_union_succ`).

Two walks with different cursors are in step if placing and passing a node, and going inside
it, lead from related stretches to related stretches, or are refused in both for the same
reason (`InStep`).  A stretch counts only if the walk gets there: if everything before it
comes to an end.  Walks in step leave the same trail at related cursors (`InStep.trail`).
-/

namespace ShapeCode

/-! ## Trails -/

/-- What a walk visited, in order, and why it stopped short if it did. -/
structure Trail where
  visits : List (Node × Cursor)
  halt : Option Halt

namespace Trail

/-- Nothing visited, and nothing in the way. -/
def still : Trail := ⟨[], none⟩

/-- Stopped short before any node. -/
def halted (h : Halt) : Trail := ⟨[], some h⟩

/-- A node, and then the trail inside it. -/
def visit (node : Node) (c : Cursor) (inside : Trail) : Trail :=
  ⟨(node, c) :: inside.visits, inside.halt⟩

/-- One trail, and then another if the first did not stop short. -/
def andThen (x y : Trail) : Trail :=
  match x.halt with
  | none => ⟨x.visits ++ y.visits, y.halt⟩
  | some _ => x

/-- Trails one after another. -/
def all (xs : List Trail) : Trail := xs.foldr andThen still

@[simp] theorem all_singleton {x : Trail} : all [x] = x := by
  obtain ⟨visits, halt⟩ := x
  cases halt <;> simp [all, andThen, still]

/-- The trail inside a node, given the trails of one value and of all fields of its
nested range, and of the fields of a variant. -/
def inside (s : Scene) (variant : UInt16 → Nat → Cursor → Trail)
    (one fields : Cursor → Trail) (node : Node) (inner : Outline) (c : Cursor) : Trail :=
  match node with
  | .scalar _ | .handle _ => still
  | .record _ | .resource _ _ => fields c
  | .union id =>
    match s.tables.union id with
    | .error f => halted (.fault f)
    | .ok u =>
      match s.discriminants u c with
      | [] => still
      | selected :: _ => variant id selected c
  | .run form plain elem =>
    match Span.resolve s.tables s.mem form plain elem inner c with
    | .error f => halted (.fault f)
    | .ok span => all (span.elements.map one)
  | .pointer form _ =>
    match s.target form inner c with
    | .error f => halted (.fault f)
    | .ok target => one target

/-- The trail through a range, or its first node if `single`. -/
def range (s : Scene) (variant : UInt16 → Nat → Cursor → Trail) :
    (single : Bool) → Outline → Cursor →
    (aligned : Bool) → Trail
  | single, .done, _, _ => if single then halted (.fault (.truncated 1 0)) else still
  | _, .broken f, _, _ => halted (.fault f)
  | single, .cons node inner rest, c, aligned =>
    match node.layout s.tables inner with
    | .error f => halted (.fault f)
    | .ok l =>
      match Walk.place aligned l.align c with
      | .error f => halted (.fault f)
      | .ok c =>
        let here :=
          visit node c (inside s variant (fun c => range s variant true inner c false)
            (fun c => range s variant false inner c false) node inner c)
        if single then here
          else here.andThen (range s variant false rest (c.advance l.size) true)

/-- The trail through the fields of a variant, entering at most `depth` unions
inside one another. -/
def variant (s : Scene) : (depth : Nat) → UInt16 → (selected : Nat) → Cursor → Trail
  | 0, _, _, _ => halted .tooDeep
  | depth + 1, id, selected, c =>
    match s.tables.union id with
    | .error f => halted (.fault f)
    | .ok u =>
      match u.variant selected with
      | .error f => halted (.fault f)
      | .ok fields =>
        range s (variant s depth) false (Outline.ofBytes fields)
          (if u.hasDiscriminant then c.advance Word.size else c) u.hasDiscriminant

end Trail

/-- The trail of a walk from a cursor on that goes inside every node. -/
def Scene.trail (s : Scene) (depth : Nat) (o : Outline) (c : Cursor) : Trail :=
  Trail.range s (Trail.variant s depth) false o c false

/-! ## Recorders -/

/-- Records nodes and where they stand, newest first, and goes inside every node. -/
def Recorder.visitor : Visitor (List (Node × Cursor)) where
  attends _ := true
  enter node c _ seen := ((node, c) :: seen, true)
  leave _ _ seen := seen

namespace Trail

/-- What a recorder ends with that left the trail. -/
def outcome (x : Trail) (seen : List (Node × Cursor)) :
    Walk.Outcome (List (Node × Cursor)) :=
  match x.halt with
  | none => .ok (x.visits.reverse ++ seen)
  | some h => .error h

variable {x y : Trail} {h : Halt} {seen : List (Node × Cursor)}

@[simp] theorem outcome_still : still.outcome seen = .ok seen := rfl

@[simp] theorem outcome_halted : (halted h).outcome seen = .error h := rfl

@[simp] theorem outcome_visit {node : Node} {c : Cursor} :
    (visit node c x).outcome seen = x.outcome ((node, c) :: seen) := by
  simp [visit, outcome]

theorem outcome_andThen :
    (x.andThen y).outcome seen = match x.outcome seen with
      | .error h => .error h
      | .ok seen => y.outcome seen := by
  obtain ⟨visits, halt⟩ := x
  cases halt <;> simp [andThen, outcome]

end Trail

namespace Walk

variable {s : Scene} {inner o : Outline} {c : Cursor} {seen : List (Node × Cursor)}
  {variant : UInt16 → Nat → Cursor → List (Node × Cursor) →
    Outcome (List (Node × Cursor))}
  {one fields : Cursor → List (Node × Cursor) → Outcome (List (Node × Cursor))}
  {variant' : UInt16 → Nat → Cursor → Trail} {one' fields' : Cursor → Trail}

theorem elements_recorder (hone : ∀ c seen, one c seen = (one' c).outcome seen)
    {span : Span} {bound : Nat} :
    elements Recorder.visitor span one bound c seen =
      (Trail.all ((span.elementsFrom bound c).map one')).outcome seen := by
  induction bound generalizing c seen with
  | zero => rfl
  | succ bound ih =>
    have hattends : Recorder.visitor.attends seen = true := rfl
    simp only [elements, Span.elementsFrom, hattends, Bool.and_true]
    split
    · simp only [List.map_cons, Trail.all, List.foldr_cons, Trail.outcome_andThen, hone]
      cases (one' c).outcome seen with
      | error h => rfl
      | ok seen => exact ih
    · rfl

/-- A recorder enters every node whose content can be found. -/
theorem visit_recorder
    (hvariant : ∀ id selected c seen,
      variant id selected c seen = (variant' id selected c).outcome seen)
    (hone : ∀ c seen, one c seen = (one' c).outcome seen)
    (hfields : ∀ c seen, fields c seen = (fields' c).outcome seen) {node : Node} :
    visit s Recorder.visitor variant one fields node inner c seen =
      (Trail.visit node c
        (Trail.inside s variant' one' fields' node inner c)).outcome seen := by
  have hvisit : ∀ content, s.content node inner c = .ok content →
      visit s Recorder.visitor variant one fields node inner c seen =
        inside s Recorder.visitor variant one fields node inner content c
          ((node, c) :: seen) := by
    intro content hcontent
    simp only [visit, Recorder.visitor, if_true, hcontent]
    split <;> exact Eq.symm ‹_›
  have hrefused : ∀ f, s.content node inner c = .error f →
      visit s Recorder.visitor variant one fields node inner c seen = .error (.fault f) :=
        by
    intro f hcontent
    simp only [visit, Recorder.visitor, if_true, hcontent]
  rw [Trail.outcome_visit]
  cases node with
  | scalar | handle => exact hvisit .plain rfl
  | record | resource => exact (hvisit .plain rfl).trans (hfields c _)
  | union id =>
    cases hu : s.tables.union id with
    | error f =>
      simp only [Trail.inside, hu, Trail.outcome_halted]
      exact hrefused f (by simp only [Scene.content, hu])
    | ok u =>
      rw [hvisit (.union u (s.discriminants u c)) (by simp only [Scene.content, hu])]
      simp only [Trail.inside, hu, inside]
      cases s.discriminants u c with
      | nil => rfl
      | cons selected more => exact hvariant id selected c _
  | run form plain elem =>
    cases hspan : Span.resolve s.tables s.mem form plain elem inner c with
    | error f =>
      simp only [Trail.inside, hspan, Trail.outcome_halted]
      exact hrefused f (by simp only [Scene.content, hspan])
    | ok span =>
      rw [hvisit (.run span) (by simp only [Scene.content, hspan])]
      simp only [Trail.inside, hspan, inside]
      exact elements_recorder hone
  | pointer form bytes =>
    rw [hvisit (.pointer (c.map s.mem.word)) rfl]
    simp only [Trail.inside, inside]
    cases s.target form inner c with
    | error f => rfl
    | ok target => exact hone target _

theorem range_recorder (hvariant : ∀ id selected c seen, variant id selected c seen =
      (variant' id selected c).outcome seen) {single aligned : Bool} :
    (range s Recorder.visitor variant single o c aligned seen).map Prod.fst =
      (Trail.range s variant' single o c aligned).outcome seen := by
  induction o generalizing single c aligned seen with
  | done => cases single <;> rfl
  | broken f => rfl
  | cons node inner rest ihi ihr =>
    simp only [range, Trail.range]
    cases node.layout s.tables inner with
    | error f => rfl
    | ok l =>
      cases hd : place aligned l.align c with
      | error f => simp only [hd]; rfl
      | ok d =>
        have hvisit : visit s Recorder.visitor variant
            (fun c seen =>
              (range s Recorder.visitor variant true inner c false seen).map Prod.fst)
            (fun c seen =>
              (range s Recorder.visitor variant false inner c false seen).map Prod.fst)
            node inner d seen =
            (Trail.visit node d
              (Trail.inside s variant' (fun c => Trail.range s variant' true inner c false)
              (fun c => Trail.range s variant' false inner c false) node
                inner d)).outcome seen := by
          refine visit_recorder hvariant ?_ ?_
          · exact fun _ _ => ihi
          · exact fun _ _ => ihi
        simp only [hd, hvisit]
        cases single with
        | true =>
          simp only [if_true]
          cases (Trail.visit node d _).outcome seen <;> rfl
        | false =>
          simp only [Bool.false_eq_true, if_false, Trail.outcome_andThen]
          cases (Trail.visit node d _).outcome seen with
          | error h => rfl
          | ok seen => exact ihr

theorem variant_recorder (depth : Nat) (id : UInt16) (selected : Nat) (c : Cursor)
    (seen : List (Node × Cursor)) :
    Walk.variant s Recorder.visitor depth id selected c seen =
        (Trail.variant s depth id selected c).outcome seen := by
  induction depth generalizing id selected c seen with
  | zero => rfl
  | succ depth ih =>
    simp only [Walk.variant, Trail.variant]
    cases s.tables.union id with
    | error f => rfl
    | ok u =>
      simp only
      cases u.variant selected with
      | error f => rfl
      | ok fields => exact range_recorder ih

/-- A walk that records nodes returns its trail, newest first, or why it stopped short. -/
theorem run_recorder {depth : Nat} :
    run s Recorder.visitor depth o c seen = (s.trail depth o c).outcome seen :=
  range_recorder (variant_recorder depth)

end Walk

/-! ## Stretches -/

/-- What a walk goes through from a cursor on: a range, or its first node if `single`. -/
structure Stretch where
  single : Bool
  outline : Outline
  cursor : Cursor
  aligned : Bool

/-- What a walk goes through inside a node at a cursor, in order. -/
def Scene.within (s : Scene) (node : Node) (inner : Outline) (c : Cursor) :
    Except Fault (List Stretch) :=
  match node with
  | .scalar _ | .handle _ => .ok []
  | .record _ | .resource _ _ => .ok [⟨false, inner, c, false⟩]
  | .union id =>
    match s.tables.union id with
    | .error f => .error f
    | .ok u =>
      match s.discriminants u c with
      | [] => .ok []
      | selected :: _ =>
        match u.variant selected with
        | .error f => .error f
        | .ok fields =>
          .ok [⟨false, Outline.ofBytes fields, if u.hasDiscriminant
            then c.advance Word.size else c,
            u.hasDiscriminant⟩]
  | .run form plain elem =>
    match Span.resolve s.tables s.mem form plain elem inner c with
    | .error f => .error f
    | .ok span => .ok (span.elements.map fun c => ⟨true, inner, c, false⟩)
  | .pointer form _ =>
    match s.target form inner c with
    | .error f => .error f
    | .ok target => .ok [⟨true, inner, target, false⟩]

namespace Stretch

/-- The trail through a stretch, entering at most `depth` unions inside one another. -/
def trail (s : Scene) (depth : Nat) (x : Stretch) : Trail :=
  Trail.range s (Trail.variant s depth) x.single x.outline x.cursor x.aligned

/-- Going through the stretch comes to an end, if the walk may enter enough unions
inside one another. -/
def Ends (s : Scene) (x : Stretch) : Prop := ∃ depth, (x.trail s depth).halt = none

/-- The trail inside a node. -/
def trailWithin (s : Scene) (depth : Nat) (node : Node) (inner : Outline)
    (c : Cursor) : Trail :=
  Trail.inside s (Trail.variant s depth) (fun c =>
    trail s depth ⟨true, inner, c, false⟩)
    (fun c => trail s depth ⟨false, inner, c, false⟩) node inner c

variable {s : Scene} {depth : Nat} {node : Node} {inner rest : Outline} {c : Cursor}

theorem trail_cons {single aligned : Bool} :
    trail s depth ⟨single, .cons node inner rest, c, aligned⟩ =
      match node.layout s.tables inner with
      | .error f => .halted (.fault f)
      | .ok l =>
        match Walk.place aligned l.align c with
        | .error f => .halted (.fault f)
        | .ok d =>
          if single then Trail.visit node d (trailWithin s depth node inner d)
          else (Trail.visit node d (trailWithin s depth node inner d)).andThen
            (trail s depth ⟨false, rest, d.advance l.size, true⟩) := by
  simp only [trail, Trail.range]
  rfl

/-- Inside a node the trail goes through what is there, to the same depth unless the
node is a union. -/
theorem trailWithin_of_not_union (h : ∀ id, node ≠ .union id) :
    trailWithin s depth node inner c =
      match s.within node inner c with
      | .error f => .halted (.fault f)
      | .ok xs => Trail.all (xs.map (trail s depth)) := by
  unfold trailWithin
  cases node with
  | scalar | handle => rfl
  | record | resource =>
    simp only [Trail.inside, Scene.within, List.map_cons, List.map_nil, Trail.all_singleton]
  | union id => exact absurd rfl (h id)
  | run form plain elem =>
    simp only [Trail.inside, Scene.within]
    cases Span.resolve s.tables s.mem form plain elem inner c with
    | error f => rfl
    | ok span => simp only [List.map_map, Function.comp_def]
  | pointer form bytes =>
    simp only [Trail.inside, Scene.within]
    cases s.target form inner c with
    | error f => rfl
    | ok target => simp only [List.map_cons, List.map_nil, Trail.all_singleton]

theorem trailWithin_union_zero {id : UInt16} (hc : c ≠ []) :
    trailWithin s 0 (.union id) inner c =
      match s.tables.union id with
      | .error f => .halted (.fault f)
      | .ok _ => .halted .tooDeep := by
  simp only [trailWithin, Trail.inside]
  cases s.tables.union id with
  | error f => rfl
  | ok u =>
    obtain ⟨a, rest, rfl⟩ := List.exists_cons_of_ne_nil hc
    cases hd : u.hasDiscriminant
      <;> simp [Scene.discriminants, hd, Cursor.splat, Trail.variant]

theorem trailWithin_union_succ {id : UInt16} :
    trailWithin s (depth + 1) (.union id) inner c =
      match s.within (.union id) inner c with
      | .error f => .halted (.fault f)
      | .ok xs => Trail.all (xs.map (trail s depth)) := by
  simp only [trailWithin, Trail.inside, Scene.within]
  cases hu : s.tables.union id with
  | error f => rfl
  | ok u =>
    cases hd : s.discriminants u c with
    | nil => simp only [hd, List.map_nil, Trail.all, List.foldr_nil]
    | cons selected more =>
      simp only [hd, Trail.variant, hu]
      cases u.variant selected with
      | error f => rfl
      | ok fields => simp only [List.map_cons, List.map_nil, Trail.all_singleton, trail]

end Stretch

/-- Inside a node that is no union lies its nested range, and nothing else. -/
theorem Scene.outline_of_within {s : Scene} {node : Node} {inner : Outline} {c : Cursor}
    {xs : List Stretch} (hnode : ∀ id, node ≠ .union id)
    (h : s.within node inner c = .ok xs) : ∀ x ∈ xs, x.outline = inner := by
  cases node with
  | scalar | handle | record | resource =>
    obtain rfl := Except.ok.inj h
    simp
  | union id => exact absurd rfl (hnode id)
  | run | pointer =>
    simp only [within] at h
    split at h
    · cases h
    · obtain rfl := Except.ok.inj h
      simp

/-! ## Two walks -/

/-- Visits of one node at related cursors. -/
def SameVisit (p : Cursor → Cursor → Prop) (v v' : Node × Cursor) : Prop :=
  v.1 = v'.1 ∧ p v.2 v'.2

/-- Trails that visit the same nodes at related cursors, and stop short for the same
reason or not at all. -/
structure Trail.Like (p : Cursor → Cursor → Prop) (x y : Trail) : Prop where
  visits : List.Forall₂ (SameVisit p) x.visits y.visits
  halt : x.halt = y.halt

namespace Trail.Like

variable {p : Cursor → Cursor → Prop} {x y x' y' : Trail}

theorem still (p : Cursor → Cursor → Prop) : Trail.still.Like p Trail.still :=
  ⟨.nil, rfl⟩

theorem halted (p : Cursor → Cursor → Prop) (h : Halt) :
    (Trail.halted h).Like p (Trail.halted h) :=
  ⟨.nil, rfl⟩

theorem visit {node : Node} {c c' : Cursor} (hc : p c c') (h : x.Like p y) :
    (Trail.visit node c x).Like p (Trail.visit node c' y) :=
  ⟨.cons ⟨rfl, hc⟩ h.visits, h.halt⟩

theorem andThen (h : x.Like p y) (hlater : x.halt = none → x'.Like p y') :
    (x.andThen x').Like p (y.andThen y') := by
  obtain ⟨visits, halt⟩ := x
  obtain ⟨visits', halt'⟩ := y
  obtain ⟨hvisits, rfl⟩ := h
  cases halt with
  | none => exact ⟨List.rel_append hvisits (hlater rfl).visits, (hlater rfl).halt⟩
  | some f => exact ⟨hvisits, rfl⟩

end Trail.Like

/-- Two outcomes that stop short for the same reason, or end in related results. -/
def SameEnd {ε α β : Type} (r : α → β → Prop) :
    Except ε α → Except ε β → Prop
  | .error e, .error e' => e = e'
  | .ok x, .ok y => r x y
  | _, _ => False

theorem SameEnd.cases {ε α β : Type} {r : α → β → Prop} {e : Except ε α}
    {e' : Except ε β} (h : SameEnd r e e') :
    (∃ f, e = .error f ∧ e' = .error f) ∨ ∃ x y, e = .ok x ∧
      e' = .ok y ∧ r x y := by
  cases e with
  | error f =>
    cases e' with
    | error f' => exact .inl ⟨f, rfl, congrArg Except.error h.symm⟩
    | ok y => exact False.elim h
  | ok x =>
    cases e' with
    | error f' => exact False.elim h
    | ok y => exact .inr ⟨x, y, rfl, rfl, h⟩

theorem SameEnd.imp {ε α β : Type} {r r' : α → β → Prop} {e : Except ε α}
    {e' : Except ε β} (h : SameEnd r e e')
    (himp : ∀ x y, e = .ok x → r x y → r' x y) : SameEnd r' e e' := by
  rcases h.cases with ⟨f, rfl, rfl⟩ | ⟨x, y, rfl, rfl, hxy⟩
  · rfl
  · exact himp x y rfl hxy

/-- Stretches side by side are related, as far as those before them end. -/
inductive Paired (s : Scene) (r : Stretch → Stretch → Prop) :
    List Stretch → List Stretch → Prop where
  | nil : Paired s r [] []
  | cons {x y : Stretch} {xs ys : List Stretch} (hxy : r x y)
      (hlater : x.Ends s → Paired s r xs ys) : Paired s r (x :: xs) (y :: ys)

theorem Paired.of_forall₂ {s : Scene} {r : Stretch → Stretch → Prop}
    {xs ys : List Stretch} (h : List.Forall₂ r xs ys) : Paired s r xs ys := by
  induction h with
  | nil => exact .nil
  | cons hxy _ ih => exact .cons hxy fun _ => ih

/-- Related stretches side by side have what the first walk's stretches have, if those
before them end. -/
theorem Paired.of_ends {s : Scene} {r : Stretch → Stretch → Prop} {q : Stretch → Prop}
    {xs ys : List Stretch} (h : List.Forall₂ r xs ys)
    (hq : ∀ before x after, xs = before ++ x :: after →
      (∀ z ∈ before, z.Ends s) → q x) :
    Paired s (fun x y => q x ∧ r x y) xs ys := by
  induction h with
  | nil => exact .nil
  | @cons x y xs ys hxy _ ih =>
    refine .cons ⟨hq [] x xs rfl (by simp), hxy⟩ fun hends =>
      ih fun before z after hxs hbefore => ?_
    refine hq (x :: before) z after (by rw [hxs, List.cons_append]) ?_
    rw [List.forall_mem_cons]
    exact ⟨hends, hbefore⟩

/-- Walks over stretches related by `r` place nodes at cursors related by `p`, pass them
and go inside them in step. -/
structure InStep (s : Scene) (r : Stretch → Stretch → Prop)
    (p : Cursor → Cursor → Prop) : Prop where
  shape : ∀ {x y}, r x y →
    x.single = y.single ∧ x.outline = y.outline ∧ x.aligned = y.aligned
  lanes : ∀ {c d}, p c d → c ≠ [] ∧ d ≠ []
  step : ∀ {single node inner rest c c' aligned l},
    r ⟨single, .cons node inner rest, c, aligned⟩ ⟨single,
      .cons node inner rest, c', aligned⟩ →
    node.layout s.tables inner = .ok l →
    SameEnd (fun d d' => p d d' ∧
        (single = false → Stretch.Ends s ⟨true, .cons node inner rest, c, aligned⟩ →
          r ⟨false, rest, d.advance l.size, true⟩
            ⟨false, rest, d'.advance l.size, true⟩) ∧
        SameEnd (Paired s r) (s.within node inner d) (s.within node inner d'))
      (Walk.place aligned l.align c) (Walk.place aligned l.align c')

namespace InStep

variable {s : Scene}
  {r : Stretch → Stretch → Prop} {p : Cursor → Cursor → Prop} {depth : Nat}

/-- Related stretches of one outline leave like trails. -/
def Alike (s : Scene) (r : Stretch → Stretch → Prop) (p : Cursor → Cursor → Prop)
    (depth : Nat) (o : Outline) : Prop :=
  ∀ x y, r x y → x.outline = o → (x.trail s depth).Like p (y.trail s depth)

theorem all_alike {xs ys : List Stretch} (hxs : Paired s r xs ys)
    (halike : ∀ x ∈ xs, Alike s r p depth x.outline) :
    (Trail.all (xs.map (Stretch.trail s depth))).Like p
        (Trail.all (ys.map (Stretch.trail s depth))) := by
  induction hxs with
  | nil => exact .still p
  | @cons x y xs ys hxy _ ih =>
    rw [List.forall_mem_cons] at halike
    exact .andThen (halike.1 x y hxy rfl) fun hends => ih ⟨depth, hends⟩ halike.2

variable (hstep : InStep s r p)

include hstep

/-- Inside a node the trails at related cursors are like, if those of what is there are:
to less depth inside a union. -/
theorem within_alike {node : Node} {inner : Outline} {c c' : Cursor} (hc : p c c')
    (hwithin : SameEnd (Paired s r) (s.within node inner c) (s.within node inner c'))
    (hinner : (∀ id, node ≠ .union id) → Alike s r p depth inner)
    (hvariant : ∀ k, depth = k + 1 → ∀ o, Alike s r p k o) :
    (Stretch.trailWithin s depth node inner c).Like p
        (Stretch.trailWithin s depth node inner c') := by
  by_cases hnode : ∀ id, node ≠ .union id
  · rw [Stretch.trailWithin_of_not_union hnode, Stretch.trailWithin_of_not_union hnode]
    rcases hwithin.cases with ⟨f, hx, hy⟩ | ⟨xs, ys, hx, hy, hxs⟩
    · simp only [hx, hy]
      exact .halted p (.fault f)
    · simp only [hx, hy]
      refine all_alike hxs fun x hmem => ?_
      rw [Scene.outline_of_within hnode hx x hmem]
      exact hinner hnode
  · push Not at hnode
    obtain ⟨id, rfl⟩ := hnode
    cases depth with
    | zero =>
      rw [Stretch.trailWithin_union_zero (hstep.lanes hc).1,
        Stretch.trailWithin_union_zero (hstep.lanes hc).2]
      cases s.tables.union id with
      | error f => exact .halted p (.fault f)
      | ok u => exact .halted p .tooDeep
    | succ k =>
      rw [Stretch.trailWithin_union_succ, Stretch.trailWithin_union_succ]
      rcases hwithin.cases with ⟨f, hx, hy⟩ | ⟨xs, ys, hx, hy, hxs⟩
      · simp only [hx, hy]
        exact .halted p (.fault f)
      · simp only [hx, hy]
        exact all_alike hxs fun x _ => hvariant k rfl x.outline

/-- Walks in step leave like trails through related stretches. -/
theorem stretch_alike (depth : Nat) (o : Outline) : Alike s r p depth o := by
  induction depth using Nat.strongRecOn generalizing o with
  | _ depth ihd =>
    induction o with
    | done =>
      rintro ⟨single, o, c, aligned⟩ ⟨single', o', c', aligned'⟩ hxy rfl
      obtain ⟨rfl, rfl, rfl⟩ := hstep.shape hxy
      cases single with
      | true => exact .halted p (.fault (.truncated 1 0))
      | false => exact .still p
    | broken f =>
      rintro ⟨single, o, c, aligned⟩ ⟨single', o', c', aligned'⟩ hxy rfl
      obtain ⟨rfl, rfl, rfl⟩ := hstep.shape hxy
      exact .halted p (.fault f)
    | cons node inner rest ihi ihr =>
      rintro ⟨single, o, c, aligned⟩ ⟨single', o', c', aligned'⟩ hxy rfl
      obtain ⟨rfl, rfl, rfl⟩ := hstep.shape hxy
      rw [Stretch.trail_cons, Stretch.trail_cons]
      cases hl : node.layout s.tables inner with
      | error f => exact .halted p (.fault f)
      | ok l =>
        rcases (hstep.step hxy hl).cases
          with ⟨f, hd, hd'⟩ | ⟨d, d', hd, hd', hp, honward, hwithin⟩
        · simp only [hd, hd']
          exact .halted p (.fault f)
        · simp only [hd, hd']
          have hhere :
              (Trail.visit node d (Stretch.trailWithin s depth node inner d)).Like p
              (Trail.visit node d' (Stretch.trailWithin s depth node inner d')) :=
            .visit hp (within_alike hstep hp hwithin (fun _ => ihi) fun k hk =>
              ihd k (by omega))
          cases single with
          | true => exact hhere
          | false =>
            refine hhere.andThen fun hends => ihr _ _ (honward rfl ⟨depth, ?_⟩) rfl
            simpa only [Stretch.trail_cons, hl, hd, if_true] using hends

/-- Walks in step visit the same nodes in the same order at related cursors, and stop
short for the same reason. -/
theorem trail {o : Outline} {c c' : Cursor}
    (h : r ⟨false, o, c, false⟩ ⟨false, o, c', false⟩) (depth : Nat) :
    (s.trail depth o c).Like p (s.trail depth o c') :=
  stretch_alike hstep depth o _ _ h rfl

end InStep

end ShapeCode
