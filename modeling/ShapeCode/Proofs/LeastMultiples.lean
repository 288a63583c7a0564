import Mathlib.Order.Bounds.Basic
import ShapeCode.Cursor
import ShapeCode.Proofs.ProperLayout

set_option autoImplicit false

/-!
# Least multiples

Rounding up clears bits, and what it gives is the least multiple of the alignment at or
behind the number: for every power of two, as long as the sum of both is in the machine
word (`Word.exists_alignUp`).

So a cursor moves to the first aligned address in every lane, and each field of a layout
goes to the first suitable offset behind those before it.  This says where all the fields of
a record are (`Layout.Placed`), and how far appending them gets in the machine word.
-/

namespace ShapeCode

/-! ## Numbers -/

namespace Word

/-- The multiples of `align` from `n` on. -/
def multiplesFrom (align n : Nat) : Set Nat := {m | align ∣ m ∧ n ≤ m}

variable {align n k : Nat}

theorem isLeast_roundUp (hpos : 0 < align) :
    IsLeast (multiplesFrom align n) (roundUp n align) :=
  ⟨⟨dvd_roundUp n align, le_roundUp_of_pos hpos⟩,
    fun _ hm => (roundUp_le_iff hpos hm.1).2 hm.2⟩

theorem alignUp_two_pow (h : n + 2 ^ k < limit) :
    alignUp n (2 ^ k) = .ok (roundUp n (2 ^ k)) :=
  alignUp_eq_ok_iff.2 ⟨isPowerOfTwo_iff.2 ⟨k, rfl⟩, h, rfl⟩

/-- Rounding up gives the least multiple.  It is nearer than the alignment, leaves a
multiple as it is, and lies at or behind what smaller numbers are rounded up to. -/
theorem exists_alignUp (h : n + 2 ^ k < limit) :
    ∃ m, alignUp n (2 ^ k) = .ok m ∧ IsLeast (multiplesFrom (2 ^ k) n) m ∧
      m < n + 2 ^ k ∧ (2 ^ k ∣ n → m = n) ∧
      ∀ n' ≤ n, ∃ m' ≤ m, alignUp n' (2 ^ k) = .ok m' := by
  have hpos : 0 < 2 ^ k := Nat.two_pow_pos k
  have hleast : IsLeast (multiplesFrom (2 ^ k) n) (roundUp n (2 ^ k)) :=
    isLeast_roundUp hpos
  refine ⟨_, alignUp_two_pow h, hleast, roundUp_lt_add hpos,
    fun hdvd => ?_, fun n' hn' => ?_⟩
  · exact Nat.le_antisymm (hleast.2 ⟨hdvd, Nat.le_refl n⟩) hleast.1.2
  · exact ⟨_, roundUp_mono hn', alignUp_two_pow (by omega)⟩

end Word

/-! ## Cursors -/

/-- A cursor moves in every lane to the first aligned address. -/
theorem Cursor.exists_alignUp {c : Cursor} {k : Nat}
    (h : ∀ a ∈ c, a + 2 ^ k < Word.limit) :
    ∃ c', c.alignUp (2 ^ k) = .ok c' ∧
      List.Forall₂ (fun a b => IsLeast (Word.multiplesFrom (2 ^ k) a) b ∧
        b < a + 2 ^ k) c c' := by
  have hpos : 0 < 2 ^ k := Nat.two_pow_pos k
  refine ⟨_, mapM_eq_ok_of_forall fun a ha => Word.alignUp_two_pow (h a ha), ?_⟩
  rw [List.forall₂_map_right_iff, List.forall₂_same]
  exact fun a _ => ⟨Word.isLeast_roundUp hpos, Word.roundUp_lt_add hpos⟩

/-! ## Fields -/

namespace Layout

/-- Fields are placed one after another behind `before`, each at the first suitable
offset, and with the largest alignment of all the layout becomes `after`. -/
inductive Placed :
    (before : Layout) → (fields : List Layout) → (offsets : List Nat) →
      (after : Layout) → Prop where
  | nil {l : Layout} : Placed l [] [] l
  | cons {before field after : Layout} {fields : List Layout} {offset : Nat}
      {offsets : List Nat}
      (hoffset : IsLeast (Word.multiplesFrom field.align before.size) offset)
      (hrest : Placed ⟨offset + field.size,
        max before.align field.align⟩ fields offsets after) :
      Placed before (field :: fields) (offset :: offsets) after

variable {l l' field before after after' : Layout} {fields : List Layout}
  {offsets offsets' : List Nat} {k size : Nat}

theorem exists_placed (hpos : ∀ field ∈ fields, 0 < field.align) (before : Layout) :
    ∃ offsets after, Placed before fields offsets after := by
  induction fields generalizing before with
  | nil => exact ⟨[], before, .nil⟩
  | cons field fields ih =>
    rw [List.forall_mem_cons] at hpos
    obtain ⟨offsets, after, h⟩ := ih hpos.2
      ⟨Word.roundUp before.size field.align + field.size, max before.align field.align⟩
    exact ⟨_ :: offsets, after, .cons (Word.isLeast_roundUp hpos.1) h⟩

/-- There is one way to place them. -/
theorem Placed.unique (h : Placed before fields offsets after)
    (h' : Placed before fields offsets' after') :
    offsets' = offsets ∧ after' = after := by
  induction h generalizing offsets' with
  | nil =>
    cases h'
    exact ⟨rfl, rfl⟩
  | cons hoffset _ ih =>
    cases h' with
    | cons hoffset' hrest' =>
      obtain rfl := hoffset.unique hoffset'
      obtain ⟨rfl, rfl⟩ := ih hrest'
      exact ⟨rfl, rfl⟩

theorem Placed.align_eq (h : Placed before fields offsets after) :
    after.align = (fields.map Layout.align).foldl max before.align := by
  induction h with
  | nil => rfl
  | cons _ _ ih => rw [ih, List.map_cons, List.foldl_cons]

theorem Placed.le (h : Placed before fields offsets after) :
    before.size ≤ after.size ∧ before.align ≤ after.align := by
  induction h with
  | nil => exact ⟨Nat.le_refl _, Nat.le_refl _⟩
  | cons hoffset _ ih =>
    have hbehind := hoffset.1.2
    dsimp only at ih
    omega

/-- One more field goes to the first suitable offset. -/
theorem append_two_pow (h : l.size + 2 ^ k < Word.limit) :
    ∃ offset, IsLeast (Word.multiplesFrom (2 ^ k) l.size) offset ∧
      ∀ l', l.append ⟨size, 2 ^ k⟩ = .ok l' ↔
        offset + size < Word.limit ∧ l' = ⟨offset + size, max l.align (2 ^ k)⟩ := by
  refine ⟨_, Word.isLeast_roundUp (Nat.two_pow_pos k), fun l' => ?_⟩
  rw [append_eq_ok_iff_of_isPowerOfTwo (Word.isPowerOfTwo_iff.2 ⟨k, rfl⟩)]
  simp only [h, true_and]

theorem foldlM_append_cons_eq_ok_iff :
    (field :: fields).foldlM append l = .ok l' ↔
      ∃ mid, l.append field = .ok mid ∧ fields.foldlM append mid = .ok l' := by
  rw [List.foldlM_cons]
  cases l.append field with
  | error f => simp [bind, Except.bind]
  | ok mid => simp [bind, Except.bind]

/-- Where appending fields gives a layout, they are placed in it. -/
theorem Placed.of_foldlM (hpow : ∀ field ∈ fields, ∃ k, field.align = 2 ^ k)
    (h : fields.foldlM append before = .ok after) :
    ∃ offsets, Placed before fields offsets after := by
  induction fields generalizing before with
  | nil =>
    obtain rfl := Except.ok.inj h
    exact ⟨[], .nil⟩
  | cons field fields ih =>
    rw [List.forall_mem_cons] at hpow
    obtain ⟨⟨k, hk⟩, hrest⟩ := hpow
    obtain ⟨mid, happend, hfold⟩ := foldlM_append_cons_eq_ok_iff.1 h
    have hpower : Word.isPowerOfTwo field.align = true :=
      Word.isPowerOfTwo_iff.2 ⟨k, hk⟩
    obtain ⟨-, -, rfl⟩ := (append_eq_ok_iff_of_isPowerOfTwo hpower).1 happend
    obtain ⟨offsets, hplaced⟩ := ih hrest hfold
    exact ⟨_ :: offsets,
      .cons (Word.isLeast_roundUp (hk ▸ Nat.two_pow_pos k)) hplaced⟩

/-- Fields can be appended where what they come to is further from the end of the
machine word than its alignment. -/
theorem Placed.foldlM_eq_ok (h : Placed before fields offsets after)
    (hpow : ∀ field ∈ fields, ∃ k, field.align = 2 ^ k)
    (hroom : after.size + after.align < Word.limit) :
    fields.foldlM append before = .ok after := by
  induction h with
  | nil => rfl
  | @cons before field after fields offset offsets hoffset hrest ih =>
    rw [List.forall_mem_cons] at hpow
    obtain ⟨⟨k, hk⟩, hpow⟩ := hpow
    have hpower : Word.isPowerOfTwo field.align = true :=
      Word.isPowerOfTwo_iff.2 ⟨k, hk⟩
    obtain rfl := hoffset.unique (Word.isLeast_roundUp (hk ▸ Nat.two_pow_pos k))
    have hbehind := hoffset.1.2
    have hle := hrest.le
    dsimp only at hle
    refine foldlM_append_cons_eq_ok_iff.2 ⟨_, ?_, ih hpow hroom⟩
    exact (append_eq_ok_iff_of_isPowerOfTwo hpower).2 ⟨by omega, by omega, rfl⟩

/-- Rounding up to a power of two gives the least multiple, as long as the sum of both
is in the machine word.  So cursors move on to the first aligned address, and fields are
placed at the first suitable offset, with the largest of their alignments. -/
theorem rounding_least :
    (∀ n k, n + 2 ^ k < Word.limit → ∃ m, Word.alignUp n (2 ^ k) = .ok m ∧
      IsLeast (Word.multiplesFrom (2 ^ k) n) m ∧
      m < n + 2 ^ k ∧ (2 ^ k ∣ n → m = n) ∧
      ∀ n' ≤ n, ∃ m' ≤ m, Word.alignUp n' (2 ^ k) = .ok m') ∧
    (∀ (c : Cursor) k, (∀ a ∈ c, a + 2 ^ k < Word.limit) →
      ∃ c', c.alignUp (2 ^ k) = .ok c' ∧
      List.Forall₂ (fun a b => IsLeast (Word.multiplesFrom (2 ^ k) a) b ∧
        b < a + 2 ^ k) c c') ∧
    (∀ (l : Layout) size k, l.size + 2 ^ k < Word.limit →
      ∃ offset, IsLeast (Word.multiplesFrom (2 ^ k) l.size) offset ∧
        ∀ l', l.append ⟨size, 2 ^ k⟩ = .ok l' ↔
          offset + size < Word.limit ∧ l' = ⟨offset + size, max l.align (2 ^ k)⟩) ∧
    ∀ (l : Layout) (fields : List Layout),
      (∀ field ∈ fields, ∃ k, field.align = 2 ^ k) →
      ∃ offsets after, Placed l fields offsets after ∧
        after.align = (fields.map Layout.align).foldl max l.align ∧
        (∀ l', fields.foldlM append l = .ok l' → l' = after) ∧
        (after.size + after.align < Word.limit → fields.foldlM append l = .ok after) := by
  refine ⟨fun n k => Word.exists_alignUp, fun c k => Cursor.exists_alignUp,
    fun l size k => append_two_pow, ?_⟩
  intro l fields hpow
  have hpos : ∀ field ∈ fields, 0 < field.align := by
    intro field hfield
    obtain ⟨k, hk⟩ := hpow field hfield
    exact hk ▸ Nat.two_pow_pos k
  obtain ⟨offsets, after, h⟩ := exists_placed hpos l
  refine ⟨offsets, after, h, h.align_eq, fun l' hfold => ?_, h.foldlM_eq_ok hpow⟩
  obtain ⟨offsets', h'⟩ := Placed.of_foldlM hpow hfold
  exact (h.unique h').2

/-- A number near the end of the machine word, a cursor that moves on in one of its
lanes, four bytes behind nine, and a byte, a word and two bytes behind one another. -/
theorem rounding_least_cases :
    IsLeast (Word.multiplesFrom (2 ^ 40) (Word.limit - 2 ^ 41 + 1))
        (Word.limit - 2 ^ 40) ∧
      List.Forall₂ (fun a b => IsLeast (Word.multiplesFrom (2 ^ 4) a) b ∧
        b < a + 2 ^ 4) [4096, 5] [4096, 16] ∧
      IsLeast (Word.multiplesFrom (2 ^ 2) 9) 12 ∧
      ∃ offsets,
        Placed .empty [⟨1, 1⟩, ⟨8, 8⟩, ⟨2, 2⟩] offsets ⟨18, 8⟩ := by
  obtain ⟨hnumbers, hcursors, happend, hfields⟩ := rounding_least
  refine ⟨?_, ?_, ?_, ?_⟩
  · have hup : Word.alignUp (Word.limit - 2 ^ 41 + 1) (2 ^ 40) =
        .ok (Word.limit - 2 ^ 40) := by
      decide +kernel
    obtain ⟨m, hm, hleast, -⟩ := hnumbers (Word.limit - 2 ^ 41 + 1) 40 (by decide)
    obtain rfl := Except.ok.inj (hup.symm.trans hm)
    exact hleast
  · have hup : Cursor.alignUp [4096, 5] (2 ^ 4) = .ok [4096, 16] := by decide +kernel
    obtain ⟨c', hc', hleast⟩ := hcursors [4096, 5] 4 (by decide)
    obtain rfl := Except.ok.inj (hup.symm.trans hc')
    exact hleast
  · obtain ⟨offset, hleast, hok⟩ := happend ⟨9, 8⟩ 4 2 (by decide)
    have hoffset : offset = 12 := by
      obtain ⟨-, hsize⟩ := (hok ⟨16, 8⟩).1 (by decide +kernel)
      simp only [Layout.mk.injEq] at hsize
      omega
    exact hoffset ▸ hleast
  · have hpow : ∀ field ∈ ([⟨1, 1⟩, ⟨8, 8⟩, ⟨2, 2⟩] : List Layout),
        ∃ k, field.align = 2 ^ k := by
      simp only [List.forall_mem_cons]
      exact ⟨⟨0, rfl⟩, ⟨3, rfl⟩, ⟨1, rfl⟩, by simp⟩
    obtain ⟨offsets, after, hplaced, -, hafter, -⟩ := hfields .empty _ hpow
    obtain rfl := hafter ⟨18, 8⟩ rfl
    exact ⟨offsets, hplaced⟩

end Layout

end ShapeCode
