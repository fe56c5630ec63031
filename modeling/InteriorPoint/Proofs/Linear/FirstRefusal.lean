import InteriorPoint.Proofs.Linear.SparseTriangle

/-!
# The entry for which a triangle is refused

A list of entries is taken as an upper triangle up to the first of them that has no place there, and
the refusal speaks of that entry alone. A coordinate outside the matrix is looked at before the side
of the diagonal, and is reported with the size that the matrix would have needed.

That size is a machine word like the coordinates, so there is one entry too many: the largest word
has no successor, and as a coordinate it is reported with the size zero, which is smaller than the
size that was too small (`triangle_refusal_law`, `triangle_refusal_wraps`).
-/

namespace InteriorPoint

variable {α : Type} {n : UInt64} {entries : List (Triplet α)} {e : Triplet α}

/-- **An entry without a place** in the upper triangle of size `n`: it lies below the diagonal, or
one of its coordinates is outside. -/
def Triplet.Misplaced (n : UInt64) (e : Triplet α) : Prop := e.col < e.row ∨ n ≤ e.row ∨ n ≤ e.col

instance (n : UInt64) (e : Triplet α) : Decidable (e.Misplaced n) :=
  inferInstanceAs (Decidable (_ ∨ _ ∨ _))

/-- The larger one of the two coordinates of an entry. -/
def Triplet.last (e : Triplet α) : ℕ := max e.row.toNat e.col.toNat

theorem Triplet.toNat_max (e : Triplet α) : (max e.row e.col).toNat = e.last := by
  have hmax : max e.row e.col = if e.row ≤ e.col then e.col else e.row := rfl
  rw [hmax, last]
  split_ifs with h
  · exact (max_eq_right (UInt64.le_iff_toNat_le.mp h)).symm
  · exact (max_eq_left (not_le.mp (UInt64.le_iff_toNat_le.not.mp h)).le).symm

/-- The entries without a place are those outside the triangle. -/
theorem Triplet.misplaced_iff : e.Misplaced n ↔ ¬ e.InTriangle n := by
  unfold Misplaced InTriangle
  simp only [UInt64.le_iff_toNat_le, UInt64.lt_iff_toNat_lt]
  omega

namespace Sparse

/-! ## What an entry is refused for -/

/-- **An entry outside the matrix** is refused with the size that it would need, as a word. -/
theorem refusal?_of_le_last (h : n.toNat ≤ e.last) :
    refusal? n e = some (.dimensionMismatch n.toNat ((e.last + 1) % 2 ^ 64)) := by
  have hle : n ≤ max e.row e.col := by
    rw [UInt64.le_iff_toNat_le, e.toNat_max]
    exact h
  have hsize : (max e.row e.col + 1).toNat = (e.last + 1) % 2 ^ 64 := by
    rw [UInt64.toNat_add, e.toNat_max]
    rfl
  unfold refusal?
  dsimp only
  rw [if_pos hle, hsize]

/-- **An entry below the diagonal** is refused by its place, if it is inside the matrix. -/
theorem refusal?_of_lt (hlast : e.last < n.toNat) (h : e.col < e.row) :
    refusal? n e = some (.invalidArgument (.belowDiagonal e.row.toNat e.col.toNat)) := by
  have hinside : ¬ n ≤ max e.row e.col := by
    rw [UInt64.le_iff_toNat_le, e.toNat_max]
    exact not_le.mpr hlast
  unfold refusal?
  dsimp only
  rw [if_neg hinside, if_pos h]

/-- **The first entry without a place** decides. -/
theorem upperTriangle_of_find? [Scalar α] {r : Error α}
    (hfirst : entries.find? (fun e => e.Misplaced n) = some e) (hr : refusal? n e = some r) :
    upperTriangle n entries = .error r := by
  obtain ⟨-, accepted, rest, hsplit, haccepted⟩ := List.find?_eq_some_iff_append.mp hfirst
  have hfound : entries.findSome? (refusal? n) = some r := by
    refine List.findSome?_eq_some_iff.mpr ⟨accepted, e, rest, hsplit, hr, fun a ha => ?_⟩
    have hplaced : ¬ a.Misplaced n := of_decide_eq_false (Bool.not_eq_true' _ ▸ haccepted a ha)
    exact refusal?_eq_none_iff.mpr (not_not.mp (Triplet.misplaced_iff.not.mp hplaced))
  unfold upperTriangle
  rw [hfound]

end Sparse

/-- **The law of refused triangles.** Of a list with an entry that has no place in the triangle, the
first such entry is reported: an entry with a coordinate outside the matrix by the size of the
matrix and the size it would need, and another one by its place below the diagonal. The size that
is needed is right for all coordinates but the largest machine word, for which it is zero. -/
theorem triangle_refusal_law [Scalar α] (n : UInt64) (entries : List (Triplet α))
    (h : ∃ e ∈ entries, e.col < e.row ∨ n ≤ e.row ∨ n ≤ e.col) :
    ∃ e, entries.find? (fun e => e.col < e.row ∨ n ≤ e.row ∨ n ≤ e.col) = some e ∧
      (n.toNat ≤ max e.row.toNat e.col.toNat → max e.row.toNat e.col.toNat + 1 < 2 ^ 64 →
        Sparse.upperTriangle n entries
          = .error (.dimensionMismatch n.toNat (max e.row.toNat e.col.toNat + 1))) ∧
      (max e.row.toNat e.col.toNat + 1 = 2 ^ 64 →
        Sparse.upperTriangle n entries = .error (.dimensionMismatch n.toNat 0)) ∧
      (max e.row.toNat e.col.toNat < n.toNat →
        Sparse.upperTriangle n entries
          = .error (.invalidArgument (.belowDiagonal e.row.toNat e.col.toNat))) := by
  have hsome : (entries.find? fun e => decide (e.Misplaced n)).isSome := by
    obtain ⟨e, he, hmisplaced⟩ := h
    exact List.find?_isSome.mpr ⟨e, he, decide_eq_true hmisplaced⟩
  obtain ⟨e, hfirst⟩ := Option.isSome_iff_exists.mp hsome
  have hfound := List.find?_some hfirst
  have hmisplaced : e.Misplaced n := of_decide_eq_true hfound
  refine ⟨e, hfirst, fun hout hfits => ?_, fun hlargest => ?_, fun hinside => ?_⟩
  · have hr := Sparse.refusal?_of_le_last (e := e) hout
    rw [Nat.mod_eq_of_lt (show e.last + 1 < 2 ^ 64 from hfits)] at hr
    exact Sparse.upperTriangle_of_find? hfirst hr
  · have hout : n.toNat ≤ e.last := by
      have hn := n.toNat_lt
      show n.toNat ≤ max e.row.toNat e.col.toNat
      omega
    have hr := Sparse.refusal?_of_le_last hout
    rw [show e.last + 1 = 2 ^ 64 from hlargest, Nat.mod_self] at hr
    exact Sparse.upperTriangle_of_find? hfirst hr
  · have hbelow : e.col < e.row := by
      simp only [Triplet.Misplaced, UInt64.le_iff_toNat_le, UInt64.lt_iff_toNat_lt] at hmisplaced ⊢
      omega
    exact Sparse.upperTriangle_of_find? hfirst (Sparse.refusal?_of_lt hinside hbelow)

/-- The law for a list whose first entry has its place, whose second one lies below the diagonal and
whose third one is outside. -/
theorem triangle_refusal_law_second :
    Sparse.upperTriangle 3 [⟨0, 1, 1⟩, ⟨2, 1, 1⟩, (⟨7, 0, 1⟩ : Triplet Float)]
      = .error (.invalidArgument (.belowDiagonal 2 1)) := by
  obtain ⟨e, hfirst, -, -, hinside⟩ := triangle_refusal_law 3
    [⟨0, 1, 1⟩, ⟨2, 1, 1⟩, (⟨7, 0, 1⟩ : Triplet Float)]
    ⟨⟨2, 1, 1⟩, by simp, by decide⟩
  obtain rfl : (⟨2, 1, 1⟩ : Triplet Float) = e := Option.some.inj hfirst
  exact hinside (by decide)

/-- **The largest machine word as a coordinate** is reported as if no rows at all were needed, and
not with the number of rows that are. -/
theorem triangle_refusal_wraps :
    Sparse.upperTriangle 2 [(⟨18446744073709551615, 0, 1⟩ : Triplet Float)]
        = .error (.dimensionMismatch 2 0) ∧
      Sparse.upperTriangle 2 [(⟨18446744073709551615, 0, 1⟩ : Triplet Float)]
        ≠ .error (.dimensionMismatch 2 18446744073709551616) :=
  ⟨rfl, fun h => nomatch h⟩

end InteriorPoint
