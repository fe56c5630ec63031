import InteriorPoint.Proofs.Linear.Checks
import InteriorPoint.Proofs.Linear.SparseTriangle

/-!
# The order in which a triangle is stored

A triangle is expanded by adding its stored entries, one after the other, to a matrix of zeros. When
the stored positions are distinct, each cell of the matrix is filled by one entry at most: by the
one at its own position, or, below the diagonal, by the one at the mirrored position. So what a cell
holds in the end does not depend on when it was filled, and column by column or row by row comes to
the same matrix (`Sparse.FilledBy`, `storage_order_law`).

An entry below the diagonal ends the expansion at once. There may be several of them, and which one
is named does depend on the order; that there is one does not.

Nothing is asked of the scalars. A cell holds zero plus the stored value, as it was added to a zero.
-/

namespace InteriorPoint

variable {α : Type} {n : ℕ}

namespace Sparse

/-! ## Which entry fills a cell -/

/-- **The cells that an entry fills**: its own position and the mirrored one. -/
def Fills (e : Fin n × Fin n × α) (r c : Fin n) : Prop := min r c = e.1 ∧ max r c = e.2.1

theorem fills_comm {e : Fin n × Fin n × α} {r c : Fin n} : Fills e r c ↔ Fills e c r := by
  unfold Fills
  rw [min_comm, max_comm]

/-- An entry of the triangle fills its own position. -/
theorem fills_self {e : Fin n × Fin n × α} (he : e.1 ≤ e.2.1) : Fills e e.1 e.2.1 :=
  ⟨min_eq_left he, max_eq_right he⟩

/-- Entries that fill the same cell are stored at the same position. -/
theorem Fills.position_eq {e e' : Fin n × Fin n × α} {r c : Fin n} (h : Fills e r c)
    (h' : Fills e' r c) : (e.1, e.2.1) = (e'.1, e'.2.1) :=
  Prod.ext (h.1.symm.trans h'.1) (h.2.symm.trans h'.2)

variable [Scalar α]

/-- **A matrix as the stored entries leave it**, when they are added to another one: a cell that one
of them fills has its value added, and every other cell is unchanged. -/
structure FilledBy (stored : List (Fin n × Fin n × α)) (M M' : Mat α n n) : Prop where
  /-- A cell that is filled. -/
  filled : ∀ e ∈ stored, ∀ r c, Fills e r c → Mat.entry M' r c = Mat.entry M r c + e.2.2
  /-- A cell that is not. -/
  unchanged : ∀ r c, (∀ e ∈ stored, ¬ Fills e r c) → Mat.entry M' r c = Mat.entry M r c

variable {stored visited : List (Fin n × Fin n × α)} {M M' : Mat α n n}

/-- There is one such matrix only. -/
theorem FilledBy.unique {N : Mat α n n} (h : FilledBy stored M M') (h' : FilledBy stored M N) :
    M' = N := by
  refine Mat.ext_entry fun r c => ?_
  by_cases hfills : ∃ e ∈ stored, Fills e r c
  · obtain ⟨e, he, hfills⟩ := hfills
    rw [h.filled e he r c hfills, h'.filled e he r c hfills]
  · have hnone : ∀ e ∈ stored, ¬ Fills e r c := fun e he hfills' => hfills ⟨e, he, hfills'⟩
    rw [h.unchanged r c hnone, h'.unchanged r c hnone]

/-- The order of the entries is not seen in it. -/
theorem FilledBy.perm (h : FilledBy visited M M') (hperm : visited.Perm stored) :
    FilledBy stored M M' where
  filled e he := h.filled e (hperm.mem_iff.mpr he)
  unchanged r c hnone := h.unchanged r c fun e he => hnone e (hperm.mem_iff.mp he)

/-- What is filled from zeros is symmetric. -/
theorem FilledBy.entry_comm (h : FilledBy stored Mat.zero M) (r c : Fin n) :
    Mat.entry M r c = Mat.entry M c r := by
  by_cases hfills : ∃ e ∈ stored, Fills e r c
  · obtain ⟨e, he, hfills⟩ := hfills
    rw [h.filled e he r c hfills, h.filled e he c r (fills_comm.mp hfills), Mat.entry_zero,
      Mat.entry_zero]
  · have hnone : ∀ e ∈ stored, ¬ Fills e r c := fun e he hfills' => hfills ⟨e, he, hfills'⟩
    rw [h.unchanged r c hnone, h.unchanged c r fun e he => fills_comm.not.mp (hnone e he),
      Mat.entry_zero, Mat.entry_zero]

/-! ## The loop over the stored entries -/

/-- **Distinct entries of the triangle** are all added, each in its own cells. -/
theorem exists_filledBy (hdistinct : (stored.map fun e => (e.1, e.2.1)).Nodup)
    (h : ∀ e ∈ stored, e.1 ≤ e.2.1) (M : Mat α n n) :
    ∃ M', stored.foldlM place M = .ok M' ∧ FilledBy stored M M' := by
  induction stored generalizing M with
  | nil => exact ⟨M, rfl, fun e he => absurd he List.not_mem_nil, fun r c _ => rfl⟩
  | cons e stored ih =>
    obtain ⟨he, h⟩ := List.forall_mem_cons.mp h
    obtain ⟨hfirst, hdistinct⟩ := List.nodup_cons.mp hdistinct
    obtain ⟨M₁, hM₁, hentry⟩ := exists_place M he
    obtain ⟨M', hM', hfilled⟩ := ih hdistinct h M₁
    have hown : ∀ r c, Fills e r c → Mat.entry M₁ r c = Mat.entry M r c + e.2.2 :=
      fun r c hfills => (hentry r c).trans (if_pos hfills)
    have hkeep : ∀ r c, ¬ Fills e r c → Mat.entry M₁ r c = Mat.entry M r c :=
      fun r c hout => (hentry r c).trans (if_neg hout)
    -- no later entry comes back to a cell of the first one
    have hother : ∀ e' ∈ stored, ∀ r c, Fills e r c → ¬ Fills e' r c := by
      intro e' he' r c hfills hfills'
      exact hfirst (List.mem_map.mpr ⟨e', he', hfills'.position_eq hfills⟩)
    refine ⟨M', ?_, ?_, fun r c hnone => ?_⟩
    · rw [List.foldlM_cons, hM₁]
      exact hM'
    · refine List.forall_mem_cons.mpr ⟨fun r c hfills => ?_, fun e' he' r c hfills' => ?_⟩
      · rw [hfilled.unchanged r c fun e' he' => hother e' he' r c hfills, hown r c hfills]
      · have hout : ¬ Fills e r c := fun hfills => hother e' he' r c hfills hfills'
        rw [hfilled.filled e' he' r c hfills', hkeep r c hout]
    · obtain ⟨hout, hnone⟩ := List.forall_mem_cons.mp hnone
      rw [hfilled.unchanged r c hnone, hkeep r c hout]

/-- **An entry below the diagonal** ends the loop, and one of them is named. -/
theorem exists_foldlM_place_eq_error (h : ∃ e ∈ stored, e.2.1 < e.1) (M : Mat α n n) :
    ∃ e ∈ stored, e.2.1 < e.1 ∧ stored.foldlM place M
      = .error (.error (.invalidArgument (.belowDiagonal e.1 e.2.1))) := by
  induction stored generalizing M with
  | nil =>
    obtain ⟨e, he, -⟩ := h
    exact absurd he List.not_mem_nil
  | cons e stored ih =>
    rcases lt_or_ge e.2.1 e.1 with hbelow | hupper
    · refine ⟨e, List.mem_cons_self, hbelow, ?_⟩
      have hplace : place M e = .error (.error (.invalidArgument (.belowDiagonal e.1 e.2.1))) :=
        if_pos hbelow
      rw [List.foldlM_cons, hplace]
      rfl
    · have hlater : ∃ e ∈ stored, e.2.1 < e.1 := by
        obtain ⟨e', he', hbelow⟩ := h
        rcases List.mem_cons.mp he' with rfl | he'
        · exact absurd hbelow hupper.not_gt
        · exact ⟨e', he', hbelow⟩
      obtain ⟨M₁, hM₁, -⟩ := exists_place M hupper
      obtain ⟨e', he', hbelow, herror⟩ := ih hlater M₁
      refine ⟨e', List.mem_cons_of_mem e he', hbelow, ?_⟩
      rw [List.foldlM_cons, hM₁]
      exact herror

/-- **A square matrix with distinct positions** is expanded, or refused for an entry below the
diagonal. -/
theorem expand_cases {p : Sparse α} (hsquare : p.rows = p.cols)
    (hdistinct : (p.stored.map fun e => (e.1, e.2.1)).Nodup) :
    (∃ M, p.expand = .ok M) ∨ ∃ e, p.expand = .error (.error e) := by
  obtain ⟨m, n, stored⟩ := p
  obtain rfl : m = n := hsquare
  by_cases hbelow : ∃ e ∈ stored, e.2.1 < e.1
  · obtain ⟨e, -, -, herror⟩ := exists_foldlM_place_eq_error hbelow Mat.zero
    exact Or.inr ⟨_, herror⟩
  · have hupper : ∀ e ∈ stored, e.1 ≤ e.2.1 := fun e he => not_lt.mp fun h => hbelow ⟨e, he, h⟩
    obtain ⟨M, hM, -⟩ := exists_filledBy hdistinct hupper Mat.zero
    exact Or.inl ⟨M, hM⟩

/-- **A triangle with distinct positions** is expanded to the same matrix in every order: a
symmetric one that holds the stored values in their cells and zeros elsewhere. -/
theorem exists_expand_perm (hdistinct : (stored.map fun e => (e.1, e.2.1)).Nodup)
    (hperm : visited.Perm stored) (hupper : ∀ e ∈ stored, e.1 ≤ e.2.1) :
    ∃ M, expand ⟨n, n, stored⟩ = .ok M ∧ expand ⟨n, n, visited⟩ = .ok M ∧
      FilledBy stored Mat.zero M := by
  have hvisited : (visited.map fun e => (e.1, e.2.1)).Nodup :=
    (hperm.map _).nodup_iff.mpr hdistinct
  obtain ⟨M, hM, hfilled⟩ := exists_filledBy hdistinct hupper Mat.zero
  obtain ⟨N, hN, hfilled'⟩ := exists_filledBy hvisited
    (fun e he => hupper e (hperm.mem_iff.mp he)) Mat.zero
  obtain rfl := (hfilled'.perm hperm).unique hfilled
  exact ⟨N, hM, hN, hfilled⟩

/-- What the entries of a triangle leave of a matrix of zeros holds their values at their positions
and at the mirrored ones. -/
theorem FilledBy.entry_stored (h : FilledBy stored Mat.zero M) {e : Fin n × Fin n × α}
    (he : e ∈ stored) (hupper : e.1 ≤ e.2.1) :
    Mat.entry M e.1 e.2.1 = 0 + e.2.2 ∧ Mat.entry M e.2.1 e.1 = 0 + e.2.2 := by
  have hfills := fills_self hupper
  rw [h.filled e he _ _ hfills, h.filled e he _ _ (fills_comm.mp hfills), Mat.entry_zero,
    Mat.entry_zero]
  exact ⟨rfl, rfl⟩

/-- It holds zeros at all other positions. -/
theorem FilledBy.entry_eq_zero (h : FilledBy stored Mat.zero M) {r c : Fin n}
    (hnone : ∀ e ∈ stored, (e.1, e.2.1) ≠ (r, c) ∧ (e.1, e.2.1) ≠ (c, r)) :
    Mat.entry M r c = 0 := by
  refine (h.unchanged r c fun e he hfills => ?_).trans (Mat.entry_zero r c)
  obtain ⟨hown, hmirrored⟩ := hnone e he
  rcases le_total r c with hrc | hrc
  · exact hown (Prod.ext (hfills.1.symm.trans (min_eq_left hrc))
      (hfills.2.symm.trans (max_eq_right hrc)))
  · exact hmirrored (Prod.ext (hfills.1.symm.trans (min_eq_right hrc))
      (hfills.2.symm.trans (max_eq_left hrc)))

/-- **A quadratic function** is made of a matrix with distinct positions, or refused. -/
theorem ofUpper_cases {p : Sparse α} (hdistinct : (p.stored.map fun e => (e.1, e.2.1)).Nodup)
    (b : Array α) (c : α) :
    (∃ f, Quadratic.ofUpper p b c = .ok f) ∨ ∃ e, Quadratic.ofUpper p b c = .error (.error e) := by
  by_cases hsquare : p.rows = p.cols
  · obtain ⟨M, hM⟩ | ⟨e, he⟩ := expand_cases hsquare hdistinct
    · rw [Quadratic.ofUpper_of_expand hsquare hM]
      cases Quadratic.ofDense (.ofMat M) b c with
      | ok f => exact Or.inl ⟨f, rfl⟩
      | error e => exact Or.inr ⟨e, rfl⟩
    · refine Or.inr ⟨e, ?_⟩
      unfold Quadratic.ofUpper
      rw [if_pos hsquare, he]
      rfl
  · exact Or.inr ⟨_, if_neg hsquare⟩

/-! ## The two storage orders -/

/-- The positions by columns are those by rows, read the other way round. -/
theorem positions_byColumns (m n : ℕ) :
    positions .byColumns m n = (Dense.positions n m).map Prod.swap := by
  show (List.finRange n).flatMap _ = ((List.finRange n).flatMap _).map _
  rw [List.map_flatMap]
  refine List.flatMap_congr fun j _ => ?_
  rw [List.map_map]
  rfl

theorem nodup_positions (order : StorageOrder) (m n : ℕ) : (positions order m n).Nodup := by
  have hrows : ∀ m n : ℕ, (Dense.positions m n).Nodup := fun m n =>
    (List.nodup_finRange m).product (List.nodup_finRange n)
  cases order with
  | byColumns =>
    rw [positions_byColumns]
    exact (hrows n m).map Prod.swap_injective
  | byRows => exact hrows m n

theorem mem_positions {order : StorageOrder} {m n : ℕ} (p : Fin m × Fin n) :
    p ∈ positions order m n := by
  cases order with
  | byColumns =>
    rw [positions_byColumns]
    exact List.mem_map.mpr ⟨p.swap, Dense.mem_positions p.2 p.1, p.swap_swap⟩
  | byRows => exact Dense.mem_positions p.1 p.2

/-- **Both orders store the same entries.** -/
theorem stored_ofEntries_perm (order order' : StorageOrder) (m n : ℕ)
    (entries : List (Triplet α)) :
    (ofEntries order m n entries).stored.Perm (ofEntries order' m n entries).stored := by
  have hpositions : (positions order m n).Perm (positions order' m n) :=
    (List.perm_ext_iff_of_nodup (nodup_positions order m n) (nodup_positions order' m n)).mpr
      fun p => iff_of_true (mem_positions p) (mem_positions p)
  exact hpositions.filterMap _

omit [Scalar α] in
/-- What is chosen along a list without repetitions, and tells what it was chosen for, repeats
nothing either. -/
theorem nodup_map_filterMap {β γ : Type} {l : List β} (hl : l.Nodup) {f : β → Option γ} {g : γ → β}
    (hg : ∀ b c, f b = some c → g c = b) : ((l.filterMap f).map g).Nodup := by
  rw [List.map_filterMap]
  refine hl.filterMap fun b b' d hb hb' => ?_
  obtain ⟨c, hc, rfl⟩ := Option.map_eq_some_iff.mp hb
  obtain ⟨c', hc', hd⟩ := Option.map_eq_some_iff.mp hb'
  rw [← hg b c hc, ← hd, hg b' c' hc']

/-- **Each position is stored at most once.** -/
theorem nodup_stored_ofEntries (order : StorageOrder) (m n : ℕ) (entries : List (Triplet α)) :
    ((ofEntries order m n entries).stored.map fun e => (e.1, e.2.1)).Nodup := by
  refine nodup_map_filterMap (nodup_positions order m n) fun p e he => ?_
  obtain ⟨v, -, rfl⟩ := Option.map_eq_some_iff.mp he
  rfl

end Sparse

/-- **The law of storage orders.** Let the stored positions be distinct. A quadratic function is
made of such a matrix or refused, whatever its shape. A square matrix is expanded exactly if no
entry is stored below the diagonal, and in every order in which its entries are visited it is
expanded to the same symmetric matrix: with zero plus the stored value at each stored position and
at the mirrored one, and with zeros elsewhere. Otherwise each order names an entry below the
diagonal. The two storage orders visit the same entries, at distinct positions. -/
theorem storage_order_law [Scalar α] :
    (∀ p : Sparse α, (p.stored.map fun e => (e.1, e.2.1)).Nodup → ∀ (b : Array α) (c : α),
      (∃ f, Quadratic.ofUpper p b c = .ok f) ∨ ∃ e, Quadratic.ofUpper p b c = .error (.error e)) ∧
    (∀ (n : ℕ) (stored visited : List (Fin n × Fin n × α)),
      (stored.map fun e => (e.1, e.2.1)).Nodup → visited.Perm stored →
      ((∀ e ∈ stored, e.1 ≤ e.2.1) →
        ∃ M : Mat α n n, Sparse.expand ⟨n, n, stored⟩ = .ok M ∧
          Sparse.expand ⟨n, n, visited⟩ = .ok M ∧
          (∀ r c, Mat.entry M r c = Mat.entry M c r) ∧
          (∀ e ∈ stored, Mat.entry M e.1 e.2.1 = 0 + e.2.2 ∧ Mat.entry M e.2.1 e.1 = 0 + e.2.2) ∧
          ∀ r c, (∀ e ∈ stored, (e.1, e.2.1) ≠ (r, c) ∧ (e.1, e.2.1) ≠ (c, r)) →
            Mat.entry M r c = 0) ∧
      ((∃ e ∈ stored, e.2.1 < e.1) →
        ∃ e ∈ stored, e.2.1 < e.1 ∧ Sparse.expand ⟨n, n, visited⟩
          = .error (.error (.invalidArgument (.belowDiagonal e.1 e.2.1))))) ∧
    ∀ (m n : ℕ) (entries : List (Triplet α)),
      ((Sparse.ofEntries .byRows m n entries).stored.map fun e => (e.1, e.2.1)).Nodup ∧
      (Sparse.ofEntries .byColumns m n entries).stored.Perm
        (Sparse.ofEntries .byRows m n entries).stored := by
  refine ⟨fun p => Sparse.ofUpper_cases, fun n stored visited hdistinct hperm => ⟨fun hupper => ?_,
    fun hbelow => ?_⟩, fun m n entries => ⟨Sparse.nodup_stored_ofEntries _ m n entries,
      Sparse.stored_ofEntries_perm _ _ m n entries⟩⟩
  · obtain ⟨M, hstored, hvisited, hfilled⟩ := Sparse.exists_expand_perm hdistinct hperm hupper
    exact ⟨M, hstored, hvisited, hfilled.entry_comm,
      fun e he => hfilled.entry_stored he (hupper e he), fun r c => hfilled.entry_eq_zero⟩
  · obtain ⟨e, he, hlt⟩ := hbelow
    obtain ⟨e', he', hlt', herror⟩ := Sparse.exists_foldlM_place_eq_error
      ⟨e, hperm.mem_iff.mpr he, hlt⟩ (Mat.zero : Mat α n n)
    exact ⟨e', hperm.mem_iff.mp he', hlt', herror⟩

/-- The law for a triangle with a corner and a zero that is stored, by columns and by rows, and for
the same triangle with a zero that is stored below the diagonal. -/
theorem storage_order_law_corner :
    (∃ M : Mat ℝ 3 3, Sparse.expand ⟨3, 3, [(1, 1, 0), (0, 2, 5)]⟩ = .ok M ∧
      Sparse.expand ⟨3, 3, [(0, 2, 5), (1, 1, 0)]⟩ = .ok M ∧
      Mat.entry M 0 2 = 5 ∧ Mat.entry M 2 0 = 5 ∧ Mat.entry M 1 1 = 0 ∧ Mat.entry M 0 1 = 0) ∧
    Sparse.expand (α := ℝ) ⟨3, 3, [(0, 2, 5), (1, 1, 0), (2, 0, 0)]⟩
      = .error (.error (.invalidArgument (.belowDiagonal 2 0))) := by
  obtain ⟨-, hlaw, -⟩ := storage_order_law (α := ℝ)
  constructor
  · obtain ⟨M, hcolumns, hrows, -, hheld, hzero⟩ :=
      (hlaw 3 [(1, 1, 0), (0, 2, 5)] [(0, 2, 5), (1, 1, 0)] (by decide) (List.Perm.swap _ _ _)).1
        (by decide)
    obtain ⟨hmiddle, -⟩ := hheld (1, 1, 0) (by simp)
    obtain ⟨hcorner, hmirrored⟩ := hheld (0, 2, 5) (by simp)
    rw [zero_add] at hmiddle hcorner hmirrored
    exact ⟨M, hcolumns, hrows, hcorner, hmirrored, hmiddle, hzero 0 1 (by simp)⟩
  · obtain ⟨e, he, hbelow, herror⟩ :=
      (hlaw 3 [(1, 1, 0), (0, 2, 5), (2, 0, 0)] [(0, 2, 5), (1, 1, 0), (2, 0, 0)] (by decide)
        (List.Perm.swap _ _ _)).2 ⟨(2, 0, 0), by simp, by decide⟩
    have hlast : e = (2, 0, 0) := by
      simp only [List.mem_cons, List.not_mem_nil, or_false] at he
      obtain rfl | rfl | rfl := he
      · exact absurd hbelow (by decide)
      · exact absurd hbelow (by decide)
      · rfl
    rw [hlast] at herror
    exact herror

end InteriorPoint
