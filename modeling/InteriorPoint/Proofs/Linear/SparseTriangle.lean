import InteriorPoint.Function.Component
import InteriorPoint.Proofs.Function.QuadraticFormulas

/-!
# The matrix that a sparse triangle describes

The entries of an upper triangle may be listed in any order, left out where they are zero, and split
into several. What is listed describes one symmetric matrix: at every position it has the sum of the
values that are listed at the larger column and the smaller row (`Sparse.described`).

Nothing is lost or counted twice on the way to it. Values at one position are summed when they are
stored, so each position of the triangle is stored at most once; and an entry that is stored goes to
its position and to the mirrored one, which on the diagonal are the same and filled once. So what is
expanded is what is described (`Sparse.expand_ofEntries`), and a quadratic function is the same
whether its quadratic term is given by its rows or by any listing of its upper triangle
(`sparse_triangle_law`).
-/

namespace InteriorPoint

/-- **An entry of the upper triangle** of size `n`. -/
def Triplet.InTriangle {α : Type} (e : Triplet α) (n : UInt64) : Prop := e.row ≤ e.col ∧ e.col < n

namespace Sparse

/-! ## What is accepted -/

section Acceptance

variable {α : Type} [Scalar α] {n : UInt64} {entries : List (Triplet α)}

omit [Scalar α] in
/-- An entry is refused exactly if it is outside the triangle. -/
theorem refusal?_eq_none_iff {e : Triplet α} : refusal? n e = none ↔ e.InTriangle n := by
  have hmax : max e.row e.col = if e.row ≤ e.col then e.col else e.row := rfl
  unfold refusal? Triplet.InTriangle
  dsimp only
  rw [hmax]
  simp only [UInt64.le_iff_toNat_le, UInt64.lt_iff_toNat_lt]
  by_cases horder : e.row.toNat ≤ e.col.toNat
  · rw [if_pos horder, if_neg (Nat.not_lt.mpr horder)]
    split_ifs with hlast
    · exact iff_of_false (fun h => nomatch h) fun h => Nat.not_lt.mpr hlast h.2
    · exact iff_of_true rfl ⟨horder, Nat.not_le.mp hlast⟩
  · rw [if_neg horder, if_pos (Nat.not_le.mp horder)]
    split_ifs with hlast
    · exact iff_of_false (fun h => nomatch h) fun h => horder h.1
    · exact iff_of_false (fun h => nomatch h) fun h => horder h.1

/-- **Entries of the triangle are accepted**, all of them. -/
theorem upperTriangle_of_inTriangle (h : ∀ e ∈ entries, e.InTriangle n) :
    upperTriangle n entries = .ok (ofEntries .byColumns n.toNat n.toNat entries) := by
  have hnone : entries.findSome? (refusal? n) = none :=
    List.findSome?_eq_none_iff.mpr fun e he => refusal?_eq_none_iff.mpr (h e he)
  unfold upperTriangle
  rw [hnone]

/-- **A list with an entry outside the triangle is refused.** -/
theorem upperTriangle_of_not_inTriangle {e : Triplet α} (he : e ∈ entries)
    (hout : ¬ e.InTriangle n) : ∃ r, upperTriangle n entries = .error r := by
  unfold upperTriangle
  cases hfound : entries.findSome? (refusal? n) with
  | some r => exact ⟨r, rfl⟩
  | none =>
    have hnone := List.findSome?_eq_none_iff.mp hfound e he
    exact absurd (refusal?_eq_none_iff.mp hnone) hout

end Acceptance

/-! ## What is listed at a position -/

/-- The sum of the values that are listed at a position. -/
noncomputable def listed (entries : List (Triplet ℝ)) (i j : ℕ) : ℝ :=
  ((entries.filter fun e => e.row.toNat = i ∧ e.col.toNat = j).map Triplet.value).sum

/-- **The symmetric matrix that a listing describes.** -/
noncomputable def described (n : ℕ) (entries : List (Triplet ℝ)) : Matrix (Fin n) (Fin n) ℝ :=
  Matrix.of fun i j => listed entries (min i j) (max i j)

theorem isSymm_described (n : ℕ) (entries : List (Triplet ℝ)) : (described n entries).IsSymm := by
  refine Matrix.IsSymm.ext fun i j => ?_
  show listed entries (min j i) (max j i) = listed entries (min i j) (max i j)
  rw [min_comm, max_comm]

theorem foldl_value (entries : List (Triplet ℝ)) (a : ℝ) :
    entries.foldl (fun sum e => sum + e.value) a = a + (entries.map Triplet.value).sum := by
  induction entries generalizing a with
  | nil => exact (add_zero a).symm
  | cons e entries ih => rw [List.foldl_cons, ih, List.map_cons, List.sum_cons, add_assoc]

/-- Where nothing is listed, nothing is stored; elsewhere the sum is. -/
theorem gather?_eq (entries : List (Triplet ℝ)) (i j : ℕ) :
    gather? entries i j =
      if ∃ e ∈ entries, e.row.toNat = i ∧ e.col.toNat = j then some (listed entries i j)
      else none := by
  unfold gather? listed
  cases hat : entries.filter fun e => e.row.toNat = i ∧ e.col.toNat = j with
  | nil =>
    refine (if_neg ?_).symm
    rintro ⟨e, he, hplace⟩
    exact List.filter_eq_nil_iff.mp hat e he (decide_eq_true hplace)
  | cons e es =>
    have hmem : e ∈ entries.filter fun e => e.row.toNat = i ∧ e.col.toNat = j :=
      hat ▸ List.mem_cons_self
    obtain ⟨he, hplace⟩ := List.mem_filter.mp hmem
    rw [if_pos ⟨e, he, of_decide_eq_true hplace⟩, List.map_cons, List.sum_cons, ← foldl_value]

/-- What is stored at a position, if anything, is what is listed there. -/
theorem getD_gather? (entries : List (Triplet ℝ)) (i j : ℕ) :
    (gather? entries i j).getD 0 = listed entries i j := by
  rw [gather?_eq]
  split_ifs with h
  · rfl
  · have hnone : (entries.filter fun e => e.row.toNat = i ∧ e.col.toNat = j) = [] :=
      List.filter_eq_nil_iff.mpr fun e he hplace => h ⟨e, he, of_decide_eq_true hplace⟩
    rw [listed, hnone]
    rfl

/-! ## Expanding -/

variable {n : ℕ}

/-- What a stored entry adds at a position: its value, if the position is its own or the mirrored
one. -/
noncomputable def share (r c : Fin n) (e : Fin n × Fin n × ℝ) : ℝ :=
  if min r c = e.1 ∧ max r c = e.2.1 then e.2.2 else 0

theorem min_max_eq_iff {i j : Fin n} (hij : i ≤ j) (r c : Fin n) :
    (min r c = i ∧ max r c = j) ↔ (r = i ∧ c = j) ∨ (r = j ∧ c = i) := by
  rcases le_total r c with hrc | hrc
  · rw [min_eq_left hrc, max_eq_right hrc]
    omega
  · rw [min_eq_right hrc, max_eq_left hrc]
    omega

/-- **One entry of the triangle** is added at its position and at the mirrored one, over any
scalars; an entry of the diagonal has one place only, and is added once. -/
theorem exists_place {α : Type} [Scalar α] (M : Mat α n n) {e : Fin n × Fin n × α}
    (he : e.1 ≤ e.2.1) :
    ∃ M', place M e = .ok M' ∧ ∀ r c, Mat.entry M' r c =
      if min r c = e.1 ∧ max r c = e.2.1 then Mat.entry M r c + e.2.2 else Mat.entry M r c := by
  obtain ⟨i, j, v⟩ := e
  have hij : i ≤ j := he
  unfold place
  dsimp only
  rw [if_neg (Nat.not_lt.mpr hij)]
  by_cases heq : i.val = j.val
  · obtain rfl : i = j := Fin.ext heq
    refine ⟨_, if_pos rfl, fun r c => ?_⟩
    rw [entry_addAt, if_congr ((min_max_eq_iff hij r c).trans (or_self_iff)) rfl rfl]
    split_ifs with h
    · rw [h.1, h.2]
    · rfl
  · rw [if_neg heq, dif_pos ⟨j.isLt, i.isLt⟩]
    refine ⟨_, rfl, fun r c => ?_⟩
    have hother : ¬ (j = i ∧ i = j) := fun h => heq (congrArg Fin.val h.2)
    rw [entry_addAt, entry_addAt, entry_addAt, if_congr (min_max_eq_iff hij r c) rfl rfl,
      if_neg hother]
    by_cases hown : r = i ∧ c = j
    · have hmirrored : ¬ (r = j ∧ c = i) := fun h => heq (congrArg Fin.val (hown.1.symm.trans h.1))
      rw [if_neg hmirrored, if_pos hown, if_pos (Or.inl hown), hown.1, hown.2]
    · by_cases hmirrored : r = j ∧ c = i
      · rw [if_pos hmirrored, if_pos (Or.inr hmirrored), hmirrored.1, hmirrored.2]
      · rw [if_neg hmirrored, if_neg hown, if_neg (not_or.mpr ⟨hown, hmirrored⟩)]

/-- **The loop over the stored entries** adds all their shares. -/
theorem exists_foldlM_place {stored : List (Fin n × Fin n × ℝ)} (h : ∀ e ∈ stored, e.1 ≤ e.2.1)
    (M : Mat ℝ n n) :
    ∃ M', stored.foldlM place M = .ok M' ∧
      ∀ r c, Mat.entry M' r c = Mat.entry M r c + (stored.map (share r c)).sum := by
  induction stored generalizing M with
  | nil => exact ⟨M, rfl, fun r c => (add_zero _).symm⟩
  | cons e stored ih =>
    obtain ⟨he, h⟩ := List.forall_mem_cons.mp h
    obtain ⟨M', hM', hentry⟩ := exists_place M he
    obtain ⟨N, hN, hrest⟩ := ih h M'
    have hshare : ∀ r c, Mat.entry M' r c = Mat.entry M r c + share r c e := by
      intro r c
      rw [hentry, share]
      split_ifs
      · rfl
      · exact (add_zero _).symm
    refine ⟨N, ?_, fun r c => ?_⟩
    · rw [List.foldlM_cons, hM']
      exact hN
    · rw [hrest, hshare, List.map_cons, List.sum_cons, add_assoc]

theorem sum_map_filterMap {β γ : Type} (f : β → Option γ) (g : γ → ℝ) (l : List β) :
    ((l.filterMap f).map g).sum = (l.map fun b => ((f b).map g).getD 0).sum := by
  induction l with
  | nil => rfl
  | cons b l ih =>
    rw [List.map_cons, List.sum_cons, ← ih]
    cases hb : f b with
    | none =>
      rw [List.filterMap_cons_none hb]
      exact (zero_add _).symm
    | some c =>
      rw [List.filterMap_cons_some hb, List.map_cons, List.sum_cons]
      rfl

/-- **The shares of what is stored** make up what is described: of all positions of the triangle,
just one is the position itself or its mirror image. -/
theorem sum_share_stored (entries : List (Triplet ℝ)) (r c : Fin n) :
    ((ofEntries .byColumns n n entries).stored.map (share r c)).sum
      = described n entries r c := by
  have hshare : ∀ i j : Fin n, (((gather? entries i j).map fun v => (i, j, v)).map
      (share r c)).getD 0 = if min r c = i ∧ max r c = j then listed entries i j else 0 := by
    intro i j
    rw [← getD_gather?]
    cases gather? entries i j with
    | none => exact (ite_self _).symm
    | some v => rfl
  show ((List.filterMap _ (positions .byColumns n n)).map (share r c)).sum = _
  rw [sum_map_filterMap]
  simp only [hshare]
  calc ((positions .byColumns n n).map fun p =>
        if min r c = p.1 ∧ max r c = p.2 then listed entries p.1 p.2 else 0).sum
      = ∑ j : Fin n, ∑ i : Fin n,
          if min r c = i ∧ max r c = j then listed entries i j else 0 := by
        unfold positions
        rw [List.map_flatMap, List.flatMap, List.sum_flatten, List.map_map, Fin.sum_univ_def]
        refine congrArg List.sum (List.map_congr_left fun j _ => ?_)
        rw [Fin.sum_univ_def, Function.comp_apply, List.map_map]
        rfl
    _ = described n entries r c := by
        rw [Finset.sum_eq_single (max r c), Finset.sum_eq_single (min r c), if_pos ⟨rfl, rfl⟩]
        · rfl
        · exact fun i _ hi => if_neg fun h => hi h.1.symm
        · exact fun h => absurd (Finset.mem_univ _) h
        · exact fun j _ hj => Finset.sum_eq_zero fun i _ => if_neg fun h => hj h.2.symm
        · exact fun h => absurd (Finset.mem_univ _) h

/-- What is stored lies in the triangle, if all entries do. -/
theorem le_of_mem_stored {entries : List (Triplet ℝ)}
    (h : ∀ e ∈ entries, e.row.toNat ≤ e.col.toNat) {e : Fin n × Fin n × ℝ}
    (he : e ∈ (ofEntries .byColumns n n entries).stored) : e.1 ≤ e.2.1 := by
  obtain ⟨⟨i, j⟩, -, hstored⟩ := List.mem_filterMap.mp he
  obtain ⟨v, hv, rfl⟩ := Option.map_eq_some_iff.mp hstored
  rw [gather?_eq, Option.ite_none_right_eq_some] at hv
  obtain ⟨⟨e, he, hrow, hcol⟩, -⟩ := hv
  have hle := h e he
  rw [hrow, hcol] at hle
  exact hle

/-- **What is expanded is what is described.** -/
theorem expand_ofEntries {entries : List (Triplet ℝ)}
    (h : ∀ e ∈ entries, e.row.toNat ≤ e.col.toNat) :
    (ofEntries .byColumns n n entries).expand = .ok (Exact.mat (described n entries)) := by
  have hstored : ∀ e ∈ (ofEntries .byColumns n n entries).stored, e.1 ≤ e.2.1 :=
    fun e he => le_of_mem_stored h he
  obtain ⟨M, hM, hentry⟩ := exists_foldlM_place (n := n) hstored Mat.zero
  have hdescribed : M = Exact.mat (described n entries) := by
    refine Mat.ext_entry fun r c => ?_
    rw [hentry, Mat.entry_zero, sum_share_stored, Exact.entry_mat]
    exact zero_add _
  exact hM.trans (congrArg Except.ok hdescribed)

end Sparse

/-! ## The rows of a matrix -/

theorem Dense.mapM_row_toArray {α : Type} {n : ℕ} (rows : List (Vec α n)) :
    (rows.map Vector.toArray).mapM (Dense.row n) = .ok rows := by
  induction rows with
  | nil => rfl
  | cons v rows ih =>
    have hv : Dense.row n v.toArray = .ok v := dif_pos v.size_toArray
    rw [List.map_cons, List.mapM_cons, hv, ih]
    rfl

theorem Dense.ofRows_eq_ok {α : Type} {n : ℕ} {rows : List (Array α)} {vectors : List (Vec α n)}
    (hcols : (rows.head?.map Array.size).getD 0 = n) (h : rows.mapM (Dense.row n) = .ok vectors) :
    Dense.ofRows rows = .ok ⟨vectors.length, n, ⟨vectors.toArray, rfl⟩⟩ := by
  subst hcols
  exact congrArg (· >>= _) h

/-- A matrix is made again from the list of its rows, unless it has columns but no rows. -/
theorem Dense.ofRows_toList {α : Type} {m n : ℕ} (M : Mat α m n) (h : m = 0 → n = 0) :
    Dense.ofRows (M.toList.map Vector.toArray) = .ok (.ofMat M) := by
  have hcols : ((M.toList.map Vector.toArray).head?.map Array.size).getD 0 = n := by
    cases hlist : M.toList with
    | nil =>
      have hm : M.toList.length = m := M.length_toList
      rw [hlist] at hm
      exact (h hm.symm).symm
    | cons v l => exact v.size_toArray
  rw [Dense.ofRows_eq_ok hcols (Dense.mapM_row_toArray M.toList)]
  obtain ⟨rows, rfl⟩ := M
  rfl

/-! ## Quadratic functions -/

theorem Quadratic.ofUpper_of_expand {α : Type} [Scalar α] {p : Sparse α}
    {M : Mat α p.rows p.cols} (hsquare : p.rows = p.cols) (h : p.expand = .ok M) (b : Array α)
    (c : α) :
    Quadratic.ofUpper p b c = FunctionSpec.refusing (Quadratic.ofDense (.ofMat M) b c) := by
  unfold Quadratic.ofUpper
  rw [if_pos hsquare, h]
  simp only [bind, Except.bind]
  cases Quadratic.ofDense (.ofMat M) b c with
  | ok q => rfl
  | error e => rfl

/-- **A quadratic term by its triangle or by its rows**: for a listing that describes `M`, the same
function or the same refusal. -/
theorem Quadratic.ofUpper_eq {n : ℕ} {entries : List (Triplet ℝ)}
    (h : ∀ e ∈ entries, e.row.toNat ≤ e.col.toNat) {M : Mat ℝ n n}
    (hM : Sparse.described n entries = M.toMatrix) (b : Array ℝ) (c : ℝ) :
    Quadratic.ofUpper (Sparse.ofEntries .byColumns n n entries) b c
      = FunctionSpec.refusing (Quadratic.ofRows (M.toList.map Vector.toArray) b c) := by
  have hexpand : (Sparse.ofEntries .byColumns n n entries).expand = .ok M :=
    (Sparse.expand_ofEntries h).trans
      (congrArg Except.ok ((congrArg Exact.mat hM).trans (mat_toMatrix_real M)))
  unfold Quadratic.ofRows
  rw [Dense.ofRows_toList M id]
  exact Quadratic.ofUpper_of_expand rfl hexpand b c

/-- **The function that is made** of a listing that describes `M` and of terms that fit has these
terms. -/
theorem Quadratic.exists_ofUpper {n : ℕ} {entries : List (Triplet ℝ)}
    (h : ∀ e ∈ entries, e.row.toNat ≤ e.col.toNat) {M : Mat ℝ n n}
    (hM : Sparse.described n entries = M.toMatrix) {b : Array ℝ} (hb : b.size = n) (hn : 0 < n)
    (c : ℝ) :
    ∃ q, Quadratic.ofUpper (Sparse.ofEntries .byColumns n n entries) b c = .ok q ∧
      Dense.ofMat q.a = .ofMat M ∧ q.b.toArray = b ∧ q.c = c := by
  subst hb
  have hdescribed : Exact.mat (Sparse.described b.size entries) = M :=
    (congrArg Exact.mat hM).trans (mat_toMatrix_real M)
  have hsymm := firstAsymmetry?_mat (α := ℝ) (Sparse.isSymm_described b.size entries)
  rw [Quadratic.ofUpper_of_expand rfl (Sparse.expand_ofEntries h)]
  exact ⟨_, congrArg FunctionSpec.refusing (ofDense_ofMat _ c hn hsymm),
    congrArg Dense.ofMat hdescribed, rfl, rfl⟩

/-- A symmetric matrix is described by any listing of its upper triangle. -/
theorem Sparse.described_eq {n : ℕ} {entries : List (Triplet ℝ)} {M : Matrix (Fin n) (Fin n) ℝ}
    (hM : M.IsSymm) (h : ∀ i j : Fin n, i ≤ j → M i j = listed entries i j) :
    described n entries = M := by
  ext i j
  show listed entries (min i.val j.val) (max i.val j.val) = M i j
  rcases le_total i j with hij | hij
  · rw [min_eq_left (Fin.le_def.mp hij), max_eq_right (Fin.le_def.mp hij), h i j hij]
  · rw [min_eq_right (Fin.le_def.mp hij), max_eq_left (Fin.le_def.mp hij), ← hM.apply i j,
      h j i hij]

/-- **The law of sparse triangles.** A list of entries is accepted as an upper triangle exactly if
all of them are in it, and is expanded to the symmetric matrix that has at each position the sum of
the values listed at the smaller index as row and the larger one as column. A listing of the upper
triangle of a symmetric matrix, in any order, with or without its zeros and with values split,
makes the same quadratic functions as the rows of the matrix: for a linear term of the same length,
unless there is no variable, the function that has the matrix as its quadratic term. -/
theorem sparse_triangle_law (n : UInt64) (entries : List (Triplet ℝ)) :
    ((∀ e ∈ entries, e.row ≤ e.col ∧ e.col < n) →
      ∃ p, Sparse.upperTriangle n entries = .ok p ∧
        (∃ D : Mat ℝ n.toNat n.toNat, p.expand.map Dense.ofMat = .ok (.ofMat D) ∧
          D.toMatrix.IsSymm ∧
          ∀ i j : Fin n.toNat, Mat.entry D i j =
            ((entries.filter fun e => e.row.toNat = min i.val j.val ∧
              e.col.toNat = max i.val j.val).map Triplet.value).sum) ∧
        ∀ M : Mat ℝ n.toNat n.toNat, M.toMatrix.IsSymm →
          (∀ i j : Fin n.toNat, i ≤ j → Mat.entry M i j =
            ((entries.filter fun e => e.row.toNat = i.val ∧
              e.col.toNat = j.val).map Triplet.value).sum) →
          ∀ b c, Quadratic.ofUpper p b c
              = FunctionSpec.refusing (Quadratic.ofRows (M.toList.map Vector.toArray) b c) ∧
            (b.size = n.toNat → 0 < n.toNat → ∃ q, Quadratic.ofUpper p b c = .ok q ∧
              Dense.ofMat q.a = .ofMat M ∧ q.b.toArray = b ∧ q.c = c)) ∧
    ((∃ e ∈ entries, ¬ (e.row ≤ e.col ∧ e.col < n)) →
      ∃ r, Sparse.upperTriangle n entries = .error r) := by
  refine ⟨fun h => ?_, fun ⟨e, he, hout⟩ => Sparse.upperTriangle_of_not_inTriangle he hout⟩
  have hle : ∀ e ∈ entries, e.row.toNat ≤ e.col.toNat :=
    fun e he => UInt64.le_iff_toNat_le.mp (h e he).1
  refine ⟨_, Sparse.upperTriangle_of_inTriangle h,
    ⟨Exact.mat (Sparse.described n.toNat entries), ?_, ?_, fun i j => ?_⟩,
    fun M hM hlisted b c => ?_⟩
  · exact congrArg (Except.map Dense.ofMat) (Sparse.expand_ofEntries hle)
  · rw [toMatrix_mat_real]
    exact Sparse.isSymm_described _ entries
  · exact Exact.entry_mat _ i j
  · have hdescribed := Sparse.described_eq hM hlisted
    exact ⟨Quadratic.ofUpper_eq hle hdescribed b c, fun hb hn =>
      Quadratic.exists_ofUpper hle hdescribed hb hn c⟩

/-- The law for a triangle whose entries are out of order and whose entry off the diagonal is split,
and for the same entries with the mirrored one. -/
theorem sparse_triangle_law_split :
    (∃ p, Sparse.upperTriangle 2 [⟨0, 1, 3 / 4⟩, ⟨1, 1, 3⟩, ⟨0, 0, 4⟩, ⟨0, 1, 1 / 4⟩] = .ok p ∧
      (∀ b c, Quadratic.ofUpper p b c
        = FunctionSpec.refusing (Quadratic.ofRows [#[4, 1], #[1, (3 : ℝ)]] b c)) ∧
      ∃ q, Quadratic.ofUpper p #[-1, 2] 5 = .ok q ∧
        Dense.ofMat q.a = .ofMat (#v[#v[4, 1], #v[1, (3 : ℝ)]] : Mat ℝ 2 2) ∧
        q.b.toArray = #[-1, 2] ∧ q.c = 5) ∧
    ∃ r, Sparse.upperTriangle 2 [⟨0, 1, 1⟩, ⟨1, 1, 3⟩, ⟨0, 0, 4⟩, ⟨1, 0, (1 : ℝ)⟩] = .error r := by
  constructor
  · obtain ⟨p, hp, -, hsame⟩ := (sparse_triangle_law 2
      [⟨0, 1, 3 / 4⟩, ⟨1, 1, 3⟩, ⟨0, 0, 4⟩, ⟨0, 1, 1 / 4⟩]).1 (by simp)
    have hterms := hsame #v[#v[4, 1], #v[1, 3]] ?_ ?_
    · exact ⟨p, hp, fun b c => (hterms b c).1, (hterms #[-1, 2] 5).2 rfl two_pos⟩
    · refine Matrix.IsSymm.ext fun i j => ?_
      fin_cases i <;> fin_cases j <;> rfl
    · intro i j hij
      fin_cases i <;> fin_cases j
      · show (4 : ℝ) = 4 + 0
        norm_num
      · show (1 : ℝ) = 3 / 4 + (1 / 4 + 0)
        norm_num
      · exact absurd hij (by decide)
      · show (3 : ℝ) = 3 + 0
        norm_num
  · exact (sparse_triangle_law 2 _).2 ⟨⟨1, 0, 1⟩, by simp, by decide⟩

end InteriorPoint
