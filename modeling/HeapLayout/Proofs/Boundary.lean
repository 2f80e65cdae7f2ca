import HeapLayout.Proofs.SlotAlignment

/-!
# Boundaries

Placing does not ask where the fields of a layout come from: any list of bound fields can be placed,
with any positions as their size fields. A field that is rounded up at run time is a boundary, and
where a later field starts depends on the counts only through the arrays between the last boundary
and itself. `forall_dvd_start_iff` says exactly when such a field is aligned for all counts: arrays
of one count may cancel each other modulo the alignment, arrays of different counts never do.
-/

namespace HeapLayout.Layout

variable {w : PointerWidth} {κ : Counts} {l : Layout} {fs : List Field} {f : Field} {k : Nat}

/-- The position of the last field up to `k` that is rounded up at run time; without one, that of
the first field. -/
def lastBoundary (fs : List Field) : Nat → Nat
  | 0 => 0
  | k + 1 => if fs[k + 1]?.map (·.align) = some .dynamic then k + 1 else lastBoundary fs k

theorem lastBoundary_le (fs : List Field) (k : Nat) : lastBoundary fs k ≤ k := by
  induction k with
  | zero => exact le_rfl
  | succ k ih =>
    rw [lastBoundary]
    split
    · exact le_rfl
    · exact Nat.le_succ_of_le ih

theorem lastBoundary_of_dynamic (hk : fs[k]? = some f) (h : f.align = .dynamic) :
    lastBoundary fs k = k := by
  cases k with
  | zero => rfl
  | succ k => simp [lastBoundary, hk, h]

theorem lastBoundary_of_static (hk : fs[k + 1]? = some f) (h : f.align ≠ .dynamic) :
    lastBoundary fs (k + 1) = lastBoundary fs k := by
  simp [lastBoundary, hk, h]

theorem sinceBoundary_append (since fs gs : List Field) :
    sinceBoundary since (fs ++ gs) = sinceBoundary (sinceBoundary since fs) gs :=
  List.foldl_append

/-- The fields since the last boundary are those from its position on. -/
theorem sinceBoundary_take_succ (hk : k < fs.length) :
    sinceBoundary [] (fs.take (k + 1)) = (fs.take (k + 1)).drop (lastBoundary fs k) := by
  induction k with
  | zero =>
    obtain ⟨f, rest, rfl⟩ := List.exists_cons_of_length_pos hk
    by_cases h : f.align = .dynamic <;> simp [sinceBoundary, lastBoundary, h]
  | succ k ih =>
    have hget : fs[k + 1]? = some fs[k + 1] := List.getElem?_eq_getElem hk
    have hbefore : (fs.take (k + 1)).length = k + 1 :=
      List.length_take_of_le (Nat.le_of_lt hk)
    rw [List.take_add_one, hget, Option.toList_some, sinceBoundary_append,
      ih (Nat.lt_of_succ_lt hk)]
    by_cases h : fs[k + 1].align = .dynamic
    · rw [lastBoundary_of_dynamic hget h, List.drop_left' hbefore, sinceBoundary_of_dynamic h]
    · have hle : lastBoundary fs k ≤ (fs.take (k + 1)).length := by
        rw [hbefore]
        exact Nat.le_succ_of_le (lastBoundary_le fs k)
      rw [lastBoundary_of_static hget h, List.drop_append_of_le_length hle]
      simp [sinceBoundary, h]

theorem sinceBoundary_take (hk : fs[k]? = some f) (h : f.align ≠ .dynamic) :
    sinceBoundary [] (fs.take k) = (fs.take k).drop (lastBoundary fs k) := by
  cases k with
  | zero => rfl
  | succ k =>
    obtain ⟨hlt, -⟩ := List.getElem?_eq_some_iff.mp hk
    rw [lastBoundary_of_static hk h, sinceBoundary_take_succ (Nat.lt_of_succ_lt hlt)]

/-- Every bound field is placed; where it starts is aligned for all counts if and only if, for each
count, the elements that it governs since the last boundary add up to a multiple of the alignment. A
field that is rounded up itself is always aligned. -/
theorem forall_dvd_start_iff (w : PointerWidth) (b : BoundLayout) {k : Nat} {bf : BoundField}
    (hk : b.fields[k]? = some bf) :
    ∃ f, (plan w b).fields[k]? = some f ∧ f.elemSize = bf.type.size w ∧
      ((∀ κ, min f.elemSize w.bytes ∣ f.start w (endOf w κ 0 ((plan w b).fields.take k))) ↔
        ∀ c, min f.elemSize w.bytes ∣
          bytesPer c (((plan w b).fields.take k).drop (lastBoundary (plan w b).fields k))) ∧
      (f.align = .dynamic →
        ∀ κ, min f.elemSize w.bytes ∣ f.start w (endOf w κ 0 ((plan w b).fields.take k))) := by
  obtain ⟨c, hc⟩ := exists_getElem?_planFrom (w := w) {} b.fields k
  rw [hk, Option.map_some] at hc
  have hf : (plan w b).fields[k]? = some (planField w c bf) := hc
  generalize hplaced : planField w c bf = f at hf
  have hsize : f.elemSize = bf.type.size w := by rw [← hplaced]; rfl
  have htype : f.type = bf.type := by rw [← hplaced]; rfl
  have hunit : f.type.alignment w = min f.elemSize w.bytes := by rw [Prim.alignment, hsize, htype]
  have hstart (κ : Counts) : f.start w (endOf w κ 0 ((plan w b).fields.take k)) =
      (plan w b).offset w κ k f 0 := rfl
  have hdynamic (h : f.align = .dynamic) (κ : Counts) :
      min f.elemSize w.bytes ∣ f.start w (endOf w κ 0 ((plan w b).fields.take k)) := by
    rw [hstart, ← hunit]
    exact dvd_offset_of_dynamic h (htype ▸ hsize) 0
  refine ⟨f, hf, hsize, ?_, hdynamic⟩
  by_cases h : f.align = .dynamic
  -- Nothing stands between a boundary and itself.
  · have hnone : ((plan w b).fields.take k).drop k = [] := by simp
    simp only [lastBoundary_of_dynamic hf h, hnone]
    exact ⟨fun _ _ => dvd_zero _, fun _ => hdynamic h⟩
  · have hplan : (plan w b).fields = planFrom w {} b.fields := rfl
    rw [← sinceBoundary_take hf h, ← forall_dvd_excess_iff, ← hunit]
    exact forall_congr' fun κ => dvd_offset_iff hplan hf h 0

/-- Two arrays of bytes that share a count, a byte behind each of them, and a half-word. -/
def pairedBound : BoundLayout where
  id := 0
  name := "pairs"
  category := "plain"
  fields := [{ name := "n", type := .uint32 },
    { name := "xs", type := .uint8, sizeField := some 0 },
    { name := "b", type := .uint8 },
    { name := "ys", type := .uint8, sizeField := some 0 },
    { name := "c", type := .uint8 },
    { name := "h", type := .uint16 }]
  sizeFields := [0]

/-- One array alone would move the half-word by single bytes; two of one count never do. -/
theorem dvd_start_paired :
    pairedBound.fields[5]? = some { name := "h", type := .uint16 } ∧
      ∃ f, (plan .eight pairedBound).fields[5]? = some f ∧ f.align = .static 0 ∧
        ∀ κ, 2 ∣ f.start .eight (endOf .eight κ 0 ((plan .eight pairedBound).fields.take 5)) := by
  obtain ⟨f, hf, -, hiff, -⟩ := forall_dvd_start_iff .eight pairedBound (k := 5) rfl
  cases hf
  refine ⟨rfl, _, rfl, rfl, hiff.mpr fun c => ?_⟩
  by_cases hc : c = 0
  · subst hc
    decide
  · rw [bytesPer_eq_zero]
    · exact dvd_zero _
    · have hgoverned : ∀ g ∈ (plan .eight pairedBound).fields, g.sizeField.getD 0 = 0 := by decide
      intro g hg hgc
      have := hgoverned g (List.mem_of_mem_take (List.mem_of_mem_drop hg))
      rw [hgc] at this
      exact hc this

end HeapLayout.Layout
