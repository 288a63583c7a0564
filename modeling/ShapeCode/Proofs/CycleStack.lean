import Mathlib.Algebra.Order.BigOperators.Ring.Finset
import ShapeCode.Emit
import ShapeCode.Proofs.CycleSearch

set_option autoImplicit false

/-!
# The search for cycles, step by step

The search goes from union to union and comes back.  Where it has to come back to is a
path: the unions entered, each with the number of ids that were looked at among those it
holds (`Entry`).  One step looks at one id, enters one union, finishes one, or takes the
next root (`advance`).

Every step has its cost, and each is paid once: that of entering a union when it stops
being unseen, that of looking at an id when the number next to its union goes up
(`workLeft_advance_lt`).  So the steps come to an end.  What the recursive search
answers from where a step leads is what it answers from where the step started
(`answerFrom_advance`), since its bound on the depth has no effect while it leaves room
for the unions unseen (`search_eq_of_card_le`).  So the steps end with the answer of the
recursive search, and this names a union inside itself if and only if there is one
(`acyclic_exact`).
-/

namespace ShapeCode

/-- Every variant is well formed, with the ids of unions in the table.  Any table of
resources will do. -/
def Tables.VariantsFormed (t : Tables) : Prop :=
  ∃ resources : Array UInt64, ∀ u ∈ t.unions, ∀ fields ∈ u.variants,
    ∃ n, WellFormed ⟨t.unions, resources⟩ n fields

namespace Verify

/-! ## Steps -/

/-- A union on the path of a search, and how many of the ids it holds were looked at. -/
structure Entry where
  union : Nat
  next : Nat
  deriving DecidableEq, Repr, Inhabited

/-- How far a search got. -/
inductive Progress where
  /-- The union entered last comes first on the path, and the roots are still
  to be looked at. -/
  | searching (marks : Array Mark) (path : List Entry) (roots : List Nat)
  | answered (answer : Except Failure Unit)

/-- One step of a search. -/
def advance (held : Array (List UInt16)) : Progress → Progress
  | .answered answer => .answered answer
  | .searching _ [] [] => .answered (.ok ())
  | .searching marks [] (root :: roots) =>
    if marks.getD root .finished = .unseen then
      .searching (marks.setIfInBounds root .entered) [⟨root, 0⟩] roots
    else .searching marks [] roots
  | .searching marks (last :: path) roots =>
    match (held.getD last.union [])[last.next]? with
    | none => .searching (marks.setIfInBounds last.union .finished) path roots
    | some id =>
      match marks[id.toNat]? with
      | none => .answered (.error (.fault (.indexOutOfBounds marks.size id.toNat)))
      | some .entered => .answered (.error (.refused (.selfContaining id)))
      | some .finished => .searching marks (⟨last.union, last.next + 1⟩ :: path) roots
      | some .unseen =>
        .searching (marks.setIfInBounds id.toNat .entered)
          (⟨id.toNat, 0⟩ :: ⟨last.union, last.next + 1⟩ :: path) roots

/-- A search before its first step. -/
def start (count : Nat) : Progress :=
  .searching (Array.replicate count .unseen) [] (List.range count)

variable {held : Array (List UInt16)} {marks : Array Mark}

theorem unseen_of_getD {i : Nat} (h : marks.getD i .finished = .unseen) :
    marks[i]? = some .unseen := by
  rw [Array.getD_eq_getD_getElem?] at h
  cases hmark : marks[i]? with
  | none => simp [hmark] at h
  | some m => simpa [hmark] using h

/-! ## The steps come to an end -/

/-- The steps that a search takes for a union and the ids it holds, from
the given one on. -/
def stepsFor (held : Array (List UInt16)) (e : Entry) : Nat :=
  (held.getD e.union []).length - e.next + 1

/-- No search takes more steps than these. -/
def workLeft (held : Array (List UInt16)) : Progress → Nat
  | .answered _ => 0
  | .searching marks path roots =>
    ∑ i ∈ unseen marks,
      (stepsFor held ⟨i, 0⟩ + 1) + (path.map (stepsFor held)).sum + roots.length + 1

/-- A union that is entered is taken from the unseen ones to the path. -/
theorem sum_unseen_enter {i : Nat} (f : Nat → Nat) (h : marks[i]? = some .unseen) :
    ∑ j ∈ unseen (marks.setIfInBounds i .entered),
      f j + f i = ∑ j ∈ unseen marks, f j := by
  rw [unseen_enter h]
  exact Finset.sum_erase_add _ _ (mem_unseen.2 h)

theorem unseen_finish_subset (i : Nat) :
    unseen (marks.setIfInBounds i .finished) ⊆ unseen marks := by
  intro j hj
  rw [mem_unseen, Array.getElem?_setIfInBounds] at hj
  rw [mem_unseen]
  split at hj
  · split at hj <;> cases hj
  · exact hj

theorem workLeft_advance_lt (path : List Entry) (roots : List Nat) :
    workLeft held (advance held (.searching marks path roots)) <
        workLeft held (.searching marks path roots) := by
  cases path with
  | nil =>
    cases roots with
    | nil => simp [advance, workLeft]
    | cons root roots =>
      simp only [advance]
      split
      · rename_i hunseen
        have hsum :=
          sum_unseen_enter (fun i => stepsFor held ⟨i, 0⟩ + 1) (unseen_of_getD hunseen)
        simp only [workLeft, List.map_cons, List.map_nil, List.sum_cons,
          List.sum_nil, List.length_cons]
        omega
      · simp only [workLeft, List.length_cons]
        omega
  | cons last path =>
    simp only [advance]
    split
    · have hsum : ∑ i ∈ unseen (marks.setIfInBounds last.union .finished),
          (stepsFor held ⟨i, 0⟩ + 1) ≤
          ∑ i ∈ unseen marks, (stepsFor held ⟨i, 0⟩ + 1) :=
            Finset.sum_le_sum_of_subset (unseen_finish_subset _)
      simp only [workLeft, List.map_cons, List.sum_cons, stepsFor] at hsum ⊢
      omega
    · rename_i id hid
      -- Looking at one more id is one step less to take for its union.
      have hstep : stepsFor held ⟨last.union, last.next + 1⟩ + 1 =
          stepsFor held last := by
        have hlt := (List.getElem?_eq_some_iff.1 hid).1
        simp only [stepsFor]
        omega
      split
      · simp only [workLeft]
        omega
      · simp only [workLeft]
        omega
      · simp only [workLeft, List.map_cons, List.sum_cons]
        omega
      · rename_i hunseen
        have hsum := sum_unseen_enter (fun i => stepsFor held ⟨i, 0⟩ + 1) hunseen
        simp only [workLeft, List.map_cons, List.sum_cons]
        omega

/-- As many steps as there is work left lead to an answer. -/
theorem answered_of_workLeft_le {s : Progress} {n : Nat} (h : workLeft held s ≤ n) :
    ∃ answer, (advance held)^[n] s = .answered answer := by
  induction n generalizing s with
  | zero =>
    cases s with
    | answered answer => exact ⟨answer, rfl⟩
    | searching marks path roots => simp [workLeft] at h
  | succ n ih =>
    rw [Function.iterate_succ_apply]
    apply ih
    cases s with
    | answered answer => exact Nat.zero_le n
    | searching marks path roots =>
      have hlt : workLeft held (advance held (.searching marks path roots)) <
          workLeft held (.searching marks path roots) := workLeft_advance_lt path roots
      omega

/-! ## Room for the unions unseen -/

/-- Two searches of lists agree if they search unseen unions alike, and leave no more
unseen than there were. -/
theorem searchAll_congr {step step' : Nat → Array Mark → Except Failure (Array Mark)}
    {bound : Nat}
    (hstep : ∀ i marks, marks[i]? = some .unseen → (unseen marks).card ≤ bound →
      step i marks = step' i marks)
    (hleft : ∀ i before after, step i before = .ok after → before[i]? = some .unseen →
      (unseen before).card ≤ bound → (unseen after).card ≤ (unseen before).card)
    {ids : List UInt16} (hbound : (unseen marks).card ≤ bound) :
    searchAll step ids marks = searchAll step' ids marks := by
  induction ids generalizing marks with
  | nil => rfl
  | cons id rest ih =>
    simp only [searchAll]
    split
    · rfl
    · rfl
    · exact ih hbound
    · rename_i hunseen
      rw [← hstep _ _ hunseen hbound]
      split
      · rfl
      · rename_i hafter
        exact ih ((hleft _ _ _ hafter hunseen hbound).trans hbound)

theorem card_unseen_pos {i : Nat} (hi : marks[i]? = some .unseen) :
    0 < (unseen marks).card :=
  Finset.card_pos.2 ⟨i, mem_unseen.2 hi⟩

/-- The bound on the depth has no effect if it leaves room for the unions unseen. -/
theorem search_eq_of_card_le {depth depth' i : Nat} (hi : marks[i]? = some .unseen)
    (h : (unseen marks).card ≤ depth) (h' : (unseen marks).card ≤ depth') :
    search held depth i marks = search held depth' i marks := by
  induction depth generalizing depth' i marks with
  | zero =>
    have := card_unseen_pos hi
    omega
  | succ depth ih =>
    cases depth' with
    | zero =>
      have := card_unseen_pos hi
      omega
    | succ depth' =>
      have hcard : (unseen (marks.setIfInBounds i .entered)).card =
          (unseen marks).card - 1 := by
        rw [unseen_enter hi, Finset.card_erase_of_mem (mem_unseen.2 hi)]
      have hroom : (unseen (marks.setIfInBounds i .entered)).card ≤ min depth depth' := by
        omega
      have hsame :
          searchAll (search held depth) (held.getD i []) (marks.setIfInBounds i .entered) =
          searchAll (search held depth')
            (held.getD i []) (marks.setIfInBounds i .entered) := by
        refine searchAll_congr (fun j marks hj hcard => ?_)
          (fun j before after hafter hj hcard => ?_) hroom
        · exact ih hj (by omega) (by omega)
        · exact Finset.card_le_card (search_eq_ok hafter hj (by omega)).grows.unseen_subset
      simp only [search, hsame]

theorem card_unseen_le (marks : Array Mark) : (unseen marks).card ≤ marks.size := by
  rw [← Finset.card_range marks.size]
  exact Finset.card_le_card (Finset.filter_subset _ _)

/-- A search of an unseen union enters it, searches what it holds, and finishes it. -/
theorem search_eq (hsize : marks.size = held.size) {i : Nat}
    (hi : marks[i]? = some .unseen) :
    search held held.size i marks =
      match searchAll (search held held.size)
        (held.getD i []) (marks.setIfInBounds i .entered) with
      | .error e => .error e
      | .ok marks => .ok (marks.setIfInBounds i .finished) := by
  have hcard := card_unseen_le marks
  have hdepth : search held held.size i marks = search held (held.size + 1) i marks :=
    search_eq_of_card_le hi (by omega) (by omega)
  rw [hdepth]
  rfl

/-! ## The answer stays the same -/

/-- Searches what is left of the unions on a path, and finishes each. -/
def finishPath (held : Array (List UInt16)) :
    List Entry → Array Mark → Except Failure (Array Mark)
  | [], marks => .ok marks
  | e :: path, marks =>
    match searchAll (search held held.size) ((held.getD e.union []).drop e.next) marks with
    | .error f => .error f
    | .ok marks => finishPath held path (marks.setIfInBounds e.union .finished)

/-- What the recursive search answers when it goes on from here. -/
def answerFrom (held : Array (List UInt16)) : Progress → Except Failure Unit
  | .answered answer => answer
  | .searching marks path roots =>
    match finishPath held path marks with
    | .error e => .error e
    | .ok marks => searchFrom held roots marks

/-- There is a mark for every union. -/
def Progress.Marked (held : Array (List UInt16)) : Progress → Prop
  | .answered _ => True
  | .searching marks _ _ => marks.size = held.size

theorem marked_start (held : Array (List UInt16)) : (start held.size).Marked held :=
  Array.size_replicate

theorem marked_advance {s : Progress} (h : s.Marked held) :
    (advance held s).Marked held := by
  cases s with
  | answered => trivial
  | searching marks path roots =>
    have hset : ∀ i m, (marks.setIfInBounds i m).size = held.size := fun i m =>
      Array.size_setIfInBounds.trans h
    cases path with
    | nil =>
      cases roots with
      | nil => trivial
      | cons root roots =>
        simp only [advance]
        split
        · exact hset _ _
        · exact h
    | cons last path =>
      simp only [advance]
      split
      · exact hset _ _
      · split
        · trivial
        · trivial
        · exact h
        · exact hset _ _

theorem answerFrom_advance {s : Progress} (h : s.Marked held) :
    answerFrom held (advance held s) = answerFrom held s := by
  cases s with
  | answered => rfl
  | searching marks path roots =>
    cases path with
    | nil =>
      cases roots with
      | nil => rfl
      | cons root roots =>
        simp only [advance]
        split
        · rename_i hunseen
          have hsearch := search_eq h (unseen_of_getD hunseen)
          cases hheld : searchAll (search held held.size)
            (held.getD root []) (marks.setIfInBounds root .entered) <;>
            simp only [answerFrom, finishPath, searchFrom, hunseen, if_true,
              hsearch, List.drop_zero, hheld]
        · rename_i hseen
          simp only [answerFrom, finishPath, searchFrom, hseen, if_false]
    | cons last path =>
      simp only [advance]
      split
      · rename_i hnone
        have hdrop : (held.getD last.union []).drop last.next = [] :=
          List.drop_eq_nil_of_le (List.getElem?_eq_none_iff.1 hnone)
        simp only [answerFrom, finishPath, hdrop, searchAll]
      · rename_i id hid
        have hdrop : (held.getD last.union []).drop last.next =
            id :: (held.getD last.union []).drop (last.next + 1) := by
          obtain ⟨hlt, rfl⟩ := List.getElem?_eq_some_iff.1 hid
          exact List.drop_eq_getElem_cons hlt
        split
        · rename_i hmark
          simp only [answerFrom, finishPath, hdrop, searchAll, hmark]
        · rename_i hmark
          simp only [answerFrom, finishPath, hdrop, searchAll, hmark]
        · rename_i hmark
          simp only [answerFrom, finishPath, hdrop, searchAll, hmark]
        · rename_i hmark
          have hsearch := search_eq h hmark
          cases hheld : searchAll (search held held.size) (held.getD id.toNat [])
              (marks.setIfInBounds id.toNat .entered) <;>
            simp only [answerFrom, finishPath, hdrop, searchAll, hmark,
              hsearch, List.drop_zero, hheld]

theorem answerFrom_iterate {s : Progress} (h : s.Marked held) (n : Nat) :
    answerFrom held ((advance held)^[n] s) = answerFrom held s := by
  induction n generalizing s with
  | zero => rfl
  | succ n ih =>
    rw [Function.iterate_succ_apply, ih (marked_advance h), answerFrom_advance h]

/-- Three steps for every union and one for every id it holds, and one more, end a
search with the answer of the recursive one. -/
theorem advance_start {n : Nat}
    (hn : ∑ i ∈ Finset.range held.size, ((held.getD i []).length + 3) < n) :
    (advance held)^[n] (start held.size) =
      .answered (searchFrom held (List.range held.size)
        (Array.replicate held.size .unseen)) := by
  have hunseen : unseen (Array.replicate held.size .unseen) = Finset.range held.size := by
    ext i
    simp [mem_unseen, Array.getElem?_replicate]
  have hwork : workLeft held (start held.size) ≤ n := by
    simp only [workLeft, start, hunseen, stepsFor, List.map_nil, List.sum_nil,
      List.length_range, Finset.sum_add_distrib, Finset.sum_const, Finset.card_range,
      Nat.nsmul_eq_mul, Nat.sub_zero] at hn ⊢
    omega
  obtain ⟨answer, hanswer⟩ := answered_of_workLeft_le hwork
  have hsame := answerFrom_iterate (marked_start held) n
  rw [hanswer] at hsame ⊢
  exact congrArg Progress.answered hsame

/-! ## Cycles -/

/-- Of tables with well formed variants, what every union holds can be collected, and
searching it step by step comes to an end with the answer of the search.  The answer is
to accept if and only if no union lies inside itself, and else names one that does. -/
theorem acyclic_exact {t : Tables} (hformed : t.VariantsFormed) :
    (∃ held, heldByAll t = .ok held ∧
      ∀ n, ∑ i ∈ Finset.range held.length,
        ((held.toArray.getD i []).length + 3) < n →
        (advance held.toArray)^[n] (start held.length) = .answered (acyclic t)) ∧
    (acyclic t = .ok () ↔ ∀ i, ¬ Relation.TransGen t.Inside i i) ∧
    ∀ e, acyclic t = .error e →
      ∃ id : UInt16, e = .refused (.selfContaining id) ∧
        Relation.TransGen t.Inside id.toNat id.toNat := by
  obtain ⟨resources, hvariants⟩ := hformed
  have hsound : ∀ u ∈ t.unions, ∀ fields ∈ u.variants,
      (Outline.ofBytes fields).Sound ⟨t.unions, resources⟩ := by
    intro u hu fields hfields
    obtain ⟨n, hn⟩ := hvariants u hu fields hfields
    have hrange : range ⟨t.unions, resources⟩ fields 0 0 = .ok (0 + n) :=
      range_of_wellFormed hn
    exact (sound_of_range hrange).1
  have hcycle : ∀ e, acyclic t = .error e →
      ∃ id : UInt16, e = .refused (.selfContaining id) ∧
        Relation.TransGen t.Inside id.toNat id.toNat := fun e h =>
    acyclic_eq_error_of_variants hsound h
  refine ⟨?_, ⟨fun h i => ?_, fun hirrefl => ?_⟩, hcycle⟩
  · obtain ⟨held, hheld, -⟩ := closed_of_variants hsound
    refine ⟨held, hheld, fun n hn => ?_⟩
    simp only [acyclic, hheld]
    exact @advance_start held.toArray n (by simpa using hn)
  · exact (Tables.wellFounded_inside h).transGen.irrefl.irrefl i
  · cases hsearch : acyclic t with
    | ok _ => rfl
    | error e =>
      obtain ⟨id, -, hinside⟩ := hcycle e hsearch
      exact absurd hinside (hirrefl id.toNat)

/-- A union of a byte and one that holds the union again, in a fixed vector. -/
def twisted : Tables where
  unions := #[⟨#[Emit.scalar .u8, Kind.record.byte :: 3 :: 0 :: Emit.union 1], [1]⟩,
    ⟨#[Kind.fixedVec.byte :: 2 :: 0 :: 0 :: 3 :: 0 :: Emit.union 0], [0]⟩]
  resources := #[]

theorem acyclic_exact_twisted :
    twisted.VariantsFormed ∧ acyclic twisted = .error (.refused (.selfContaining 0)) ∧
    Relation.TransGen twisted.Inside 0 0 := by
  have hformed : twisted.VariantsFormed := by
    have hcounted : ∀ fields, range twisted fields 0 0 = .ok 1 →
        ∃ n, WellFormed twisted n fields :=
      fun fields h => ⟨1, range_eq_ok_iff.1 h⟩
    refine ⟨#[], fun u hu fields hfields => hcounted fields ?_⟩
    simp only [twisted, List.mem_toArray, List.mem_cons, List.not_mem_nil, or_false] at hu
    rcases hu with rfl | rfl
    · simp only [List.mem_toArray, List.mem_cons, List.not_mem_nil, or_false] at hfields
      rcases hfields with rfl | rfl
      · decide +kernel
      · decide +kernel
    · simp only [List.mem_toArray, List.mem_cons, List.not_mem_nil, or_false] at hfields
      subst hfields
      decide +kernel
  have hcycle : acyclic twisted = .error (.refused (.selfContaining 0)) := by decide +kernel
  obtain ⟨id, hid, hinside⟩ := (acyclic_exact hformed).2.2 _ hcycle
  cases hid
  exact ⟨hformed, hcycle, hinside⟩

end Verify

end ShapeCode
