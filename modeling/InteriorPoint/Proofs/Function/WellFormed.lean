import InteriorPoint.Function.Component
import InteriorPoint.Proofs.Function.Composition
import InteriorPoint.Text.Message

/-!
# Functions are well formed once they are made

A function is made from parts of any number of variables, and shapes are compared then and only
then: the terms of a quadratic function when it is made, the constraints of a barrier with its
objective when it is composed. An evaluation compares one thing, the length of the point, and after
that no vector or matrix of it, at whatever depth, has another shape than the operation that it is
handed to.

So over any scalars, with undefined and infinite ones among them, a function that was made from
quadratic functions and barriers evaluates at every point of the right length
(`Smooth.WellFormed`), and all its parts have the same number of variables, which is not zero
(`FunctionSpec.IsPartOf.exists_make`). A point of another length is refused before anything is
recorded (`well_formed_law`).

Functions with formulas of their own are left out. They read the coordinates that they need and do
not compare lengths.
-/

namespace InteriorPoint

variable {α : Type} [Scalar α] {n : ℕ}

/-! ## Sequences that do not fail -/

/-- A sequence of two checks passes exactly if both do. -/
theorem bind_eq_ok_iff {ε β γ : Type} {x : Except ε β} {f : β → Except ε γ} {c : γ} :
    x >>= f = .ok c ↔ ∃ b, x = .ok b ∧ f b = .ok c := by
  cases x with
  | error e => exact iff_of_false (fun h => nomatch h) fun ⟨b, hb, _⟩ => nomatch hb
  | ok b =>
    refine ⟨fun h => ⟨b, rfl, h⟩, ?_⟩
    rintro ⟨b', hb, hc⟩
    obtain rfl := Except.ok.inj hb
    exact hc

theorem exists_of_map_eq_ok {ε β γ : Type} {x : Except ε β} {f : β → γ} {c : γ}
    (h : x.map f = .ok c) : ∃ b, x = .ok b ∧ f b = c := by
  cases x with
  | error e => exact nomatch h
  | ok b => exact ⟨b, rfl, Except.ok.inj h⟩

/-! ## Evaluations -/

namespace Smooth

omit [Scalar α] in
/-- Whatever starts with a comparison of lengths goes on at a point of the right length. -/
theorem point_bind_toArray {β : Type} (x : Vec α n) (k : Vec α n → Answer α β) :
    point n x.toArray >>= k = k x := by
  rw [point_toArray, pure_bind]

omit [Scalar α] in
/-- Whatever starts with a comparison of lengths is refused at a point of another length. -/
theorem point_bind_of_size_ne {β : Type} {x : Array α} (hx : x.size ≠ n)
    (k : Vec α n → Answer α β) : point n x >>= k = Answer.fail (.wrongLength x.size n) := by
  rw [point_of_size_ne hx]
  rfl

/-- **A well-formed function** evaluates at every point of the right length, and refuses every
other point before it records anything. -/
structure WellFormed (f : Smooth α n) : Prop where
  /-- There is a value at every vector. -/
  value_ok (x : Vec α n) : ∃ v, (f.value x.toArray).outcome = .ok v
  /-- There is a gradient at every vector. -/
  gradient_ok (x : Vec α n) : ∃ g, (f.gradient x.toArray).outcome = .ok g
  /-- There is a Hessian at every vector. -/
  hessian_ok (x : Vec α n) : ∃ K, (f.hessian x.toArray).outcome = .ok K
  /-- There is no value at a point of another length. -/
  value_of_size_ne {x : Array α} (hx : x.size ≠ n) :
    f.value x = Answer.fail (.wrongLength x.size n)
  /-- There is no gradient at a point of another length. -/
  gradient_of_size_ne {x : Array α} (hx : x.size ≠ n) :
    f.gradient x = Answer.fail (.wrongLength x.size n)
  /-- There is no Hessian at a point of another length. -/
  hessian_of_size_ne {x : Array α} (hx : x.size ≠ n) :
    f.hessian x = Answer.fail (.wrongLength x.size n)

omit [Scalar α] in
/-- A well-formed function evaluates at every vector. -/
theorem WellFormed.evaluatesAt {f : Smooth α n} (hf : f.WellFormed) (x : Vec α n) :
    f.EvaluatesAt x :=
  ⟨hf.value_ok x, hf.gradient_ok x, hf.hessian_ok x⟩

omit [Scalar α] in
/-- **Formulas** on vectors are well formed, whatever they are. -/
theorem wellFormed_ofFormulas (value : Vec α n → α) (gradient : Vec α n → Vec α n)
    (hessian : Vec α n → Mat α n n) : (ofFormulas value gradient hessian).WellFormed where
  value_ok x := ⟨value x, congrArg Answer.outcome (point_bind_toArray x _)⟩
  gradient_ok x := ⟨gradient x, congrArg Answer.outcome (point_bind_toArray x _)⟩
  hessian_ok x := ⟨hessian x, congrArg Answer.outcome (point_bind_toArray x _)⟩
  value_of_size_ne hx := point_bind_of_size_ne hx _
  gradient_of_size_ne hx := point_bind_of_size_ne hx _
  hessian_of_size_ne hx := point_bind_of_size_ne hx _

end Smooth

namespace Barrier

variable {φ : Barrier α n}

/-- **Strict feasibility can be told** at every point of the right length. -/
theorem exists_outcome_isStrictlyFeasible (h : ∀ c ∈ φ.constraints, c.WellFormed) (x : Vec α n) :
    ∃ b, (φ.isStrictlyFeasible x.toArray).outcome = .ok b := by
  have : Nonempty α := ⟨0⟩
  choose! u hu using fun c hc => (h c hc).value_ok x
  exact ⟨_, outcome_isStrictlyFeasible_eq hu⟩

/-- **A barrier over well-formed functions** is well formed. -/
theorem wellFormed_toSmooth (h₀ : φ.objective.WellFormed) (h : ∀ c ∈ φ.constraints, c.WellFormed) :
    φ.toSmooth.WellFormed :=
  have hevaluates (x : Vec α n) : φ.toSmooth.EvaluatesAt x := evaluatesAt_toSmooth
    (List.forall_mem_cons.mpr ⟨h₀.evaluatesAt x, fun c hc => (h c hc).evaluatesAt x⟩)
  { value_ok := fun x => (hevaluates x).value
    gradient_ok := fun x => (hevaluates x).gradient
    hessian_ok := fun x => (hevaluates x).hessian
    value_of_size_ne := fun hx => Smooth.point_bind_of_size_ne hx _
    gradient_of_size_ne := fun hx => Smooth.point_bind_of_size_ne hx _
    hessian_of_size_ne := fun hx => Smooth.point_bind_of_size_ne hx _ }

/-! ## Composition -/

omit [Scalar α] in
/-- A function is taken over as one of `n` variables exactly if it is one. -/
theorem component_eq_ok_iff {f : (m : ℕ) × Smooth α m} {c : Smooth α n} :
    component n f = .ok c ↔ f = ⟨n, c⟩ := by
  obtain ⟨m, f⟩ := f
  unfold component
  dsimp only
  split_ifs with hm
  · subst hm
    exact ⟨fun h => congrArg (Sigma.mk m) (Except.ok.inj h), fun h => congrArg Except.ok
      (eq_of_heq (Sigma.mk.inj h).2)⟩
  · exact iff_of_false (fun h => nomatch h) fun h => hm (Sigma.mk.inj h).1

omit [Scalar α] in
theorem mapM_component_eq_ok {fs : List ((m : ℕ) × Smooth α m)} {cs : List (Smooth α n)}
    (h : fs.mapM (component n) = .ok cs) : fs = cs.map (Sigma.mk n) := by
  induction fs generalizing cs with
  | nil =>
    obtain rfl : [] = cs := Except.ok.inj h
    rfl
  | cons f fs ih =>
    rw [List.mapM_cons] at h
    obtain ⟨c, hc, h⟩ := bind_eq_ok_iff.mp h
    obtain ⟨cs', hcs', h⟩ := bind_eq_ok_iff.mp h
    obtain rfl := Except.ok.inj h
    rw [component_eq_ok_iff.mp hc, ih hcs', List.map_cons]

theorem ofWeight_eq_ok {t : α} {f : Smooth α n} {cs : List (Smooth α n)}
    (h : ofWeight t f cs = .ok φ) : φ.objective = f ∧ φ.constraints = cs := by
  unfold ofWeight at h
  split_ifs at h
  obtain rfl := Except.ok.inj h
  exact ⟨rfl, rfl⟩

/-- **A barrier that was composed** has the objective and the constraints that were handed in, and
these were all of its number of variables. -/
theorem compose_eq_ok {t : α} {f : Smooth α n} {fs : List ((m : ℕ) × Smooth α m)}
    (h : compose t f fs = .ok φ) : φ.objective = f ∧ fs = φ.constraints.map (Sigma.mk n) := by
  obtain ⟨ψ, hψ, h⟩ := bind_eq_ok_iff.mp h
  obtain ⟨cs, hcs, h⟩ := bind_eq_ok_iff.mp h
  obtain rfl := Except.ok.inj h
  exact ⟨(ofWeight_eq_ok hψ).1, mapM_component_eq_ok hcs⟩

/-- Another weight changes neither the objective nor the constraints, however often. -/
theorem foldlM_withWeight_eq_ok {ts : List α} {ψ : Barrier α n}
    (h : ts.foldlM withWeight φ = .ok ψ) :
    ψ.objective = φ.objective ∧ ψ.constraints = φ.constraints := by
  induction ts generalizing φ with
  | nil =>
    obtain rfl : φ = ψ := Except.ok.inj h
    exact ⟨rfl, rfl⟩
  | cons t ts ih =>
    rw [List.foldlM_cons] at h
    obtain ⟨φ', hφ', h⟩ := bind_eq_ok_iff.mp h
    obtain ⟨h₀, hcs⟩ := ofWeight_eq_ok hφ'
    rw [← h₀, ← hcs]
    exact ih h

end Barrier

/-! ## What can be asked of a function -/

namespace Component

/-- A barrier, the one kind of function with a test for strict feasibility. -/
def isBarrier : Component α → Bool
  | .barrier _ => true
  | _ => false

/-- **A function with a variable of which everything can be asked** at every point of the right
length, and nothing at any other. -/
structure WellFormed (f : Component α) : Prop where
  /-- There is a variable. -/
  dim_pos : 0 < f.dim
  /-- The function and its derivatives are well formed. -/
  smooth : f.smooth.WellFormed
  /-- If it is a barrier, strict feasibility can be told at every vector. -/
  feasible_ok (x : Vec α f.dim) : ∃ b : Option Bool,
    (f.feasible x.toArray).outcome = .ok (b.map .ok) ∧ b.isSome = f.isBarrier

/-- A quadratic function is well formed, whatever its terms. -/
theorem wellFormed_quadratic (q : Quadratic α n) : (quadratic q).WellFormed where
  dim_pos := q.dim_pos
  smooth := Smooth.wellFormed_ofFormulas _ _ _
  feasible_ok _ := ⟨none, rfl, rfl⟩

/-- **A barrier over well-formed functions** is well formed. -/
theorem wellFormed_barrier {φ : Barrier α n} (hn : 0 < n) (h₀ : φ.objective.WellFormed)
    (h : ∀ c ∈ φ.constraints, c.WellFormed) : (barrier φ).WellFormed where
  dim_pos := hn
  smooth := Barrier.wellFormed_toSmooth h₀ h
  feasible_ok x := by
    obtain ⟨b, hb⟩ := Barrier.exists_outcome_isStrictlyFeasible h x
    refine ⟨some b, ?_, rfl⟩
    exact congrArg (fun r => Except.ok (some r)) hb

/-- A point of another length is refused by the feasibility test as well. -/
theorem feasible_of_size_ne (f : Component α) {x : Array α} (hx : x.size ≠ f.dim) :
    f.feasible x
      = pure (if f.isBarrier then some (.error (.wrongLength x.size f.dim)) else none) := by
  cases f with
  | quadratic q => rfl
  | formula f => rfl
  | @barrier m φ =>
    have hm : x.size ≠ m := hx
    show some <$> (φ.isStrictlyFeasible x).attempt = _
    rw [Barrier.isStrictlyFeasible, Smooth.point_bind_of_size_ne hm]
    rfl

/-- **The answers to everything that can be asked** are the outcomes of the parts. -/
theorem outcome_evaluate {f : Component α} {x : Array α} {b : Option (Except (Failure α) Bool)}
    (hb : (f.feasible x).outcome = .ok b) :
    (f.evaluate x).outcome = .ok {
      value := (f.smooth.value x).outcome
      gradient := (f.smooth.gradient x).outcome.map Vector.toArray
      hessian := (f.smooth.hessian x).outcome.map Dense.ofMat
      feasible := b } :=
  Answer.outcome_bind_eq_ok.mpr ⟨_, rfl, Answer.outcome_bind_eq_ok.mpr ⟨_, rfl,
    Answer.outcome_bind_eq_ok.mpr ⟨_, rfl, Answer.outcome_bind_eq_ok.mpr ⟨b, hb, rfl⟩⟩⟩⟩

end Component

/-! ## Specifications -/

namespace FunctionSpec

/-- **A specification without formulas**: a quadratic function by any of its constructors, or a
barrier over functions that are specified in this way. -/
inductive WithoutFormulas : FunctionSpec α → Prop
  /-- A quadratic function with a dense quadratic term. -/
  | dense (a : Dense α) (b : Array α) (c : α) : WithoutFormulas (.dense a b c)
  /-- A quadratic function by the rows of its quadratic term. -/
  | rows (a : List (Array α)) (b : Array α) (c : α) : WithoutFormulas (.rows a b c)
  /-- An affine function. -/
  | linear (b : Array α) (c : α) : WithoutFormulas (.linear b c)
  /-- A quadratic function by the entries of the upper triangle of its quadratic term. -/
  | upper (m : UInt64) (entries : List (Triplet α)) (b : Array α) (c : α) :
    WithoutFormulas (.upper m entries b c)
  /-- A quadratic function with a sparse quadratic term. -/
  | sparse (p : Sparse α) (b : Array α) (c : α) : WithoutFormulas (.sparse p b c)
  /-- A barrier, set to any weights afterwards. -/
  | barrier {t : α} {objective : FunctionSpec α} {constraints : List (FunctionSpec α)}
    {weights : List α} (h₀ : WithoutFormulas objective)
    (h : ∀ s ∈ constraints, WithoutFormulas s) :
    WithoutFormulas (.barrier t objective constraints weights)

/-- **A part of a specification**, at any depth: the specification itself, and the parts of the
objective and of the constraints of a barrier. -/
inductive IsPartOf (part : FunctionSpec α) : FunctionSpec α → Prop
  /-- The whole. -/
  | whole : IsPartOf part part
  /-- A part of the objective. -/
  | objective {t : α} {objective : FunctionSpec α} {constraints : List (FunctionSpec α)}
    {weights : List α} (h : IsPartOf part objective) :
    IsPartOf part (.barrier t objective constraints weights)
  /-- A part of a constraint. -/
  | constraint {t : α} {objective s : FunctionSpec α} {constraints : List (FunctionSpec α)}
    {weights : List α} (hs : s ∈ constraints) (h : IsPartOf part s) :
    IsPartOf part (.barrier t objective constraints weights)

theorem makeAll_eq_ok {ss : List (FunctionSpec α)} {fs : List (Component α)}
    (h : makeAll ss = .ok fs) : ss.map make = fs.map .ok := by
  induction ss generalizing fs with
  | nil =>
    obtain rfl : [] = fs := Except.ok.inj h
    rfl
  | cons s ss ih =>
    rw [makeAll] at h
    obtain ⟨f, hf, h⟩ := bind_eq_ok_iff.mp h
    obtain ⟨fs', hfs', h⟩ := bind_eq_ok_iff.mp h
    obtain rfl := Except.ok.inj h
    rw [List.map_cons, List.map_cons, hf, ih hfs']

omit [Scalar α] in
theorem refusing_eq_ok {β : Type} {x : Except (Error α) β} {b : β} (h : refusing x = .ok b) :
    x = .ok b := by
  cases x with
  | error e => exact nomatch h
  | ok b' => exact congrArg Except.ok (Except.ok.inj h)

/-- **A barrier that was made**, with the functions that its parts are made as: the objective is
the function of its specification, and the constraints are those of theirs, all of the number of
variables of the objective. -/
theorem exists_of_make_barrier {t : α} {objective : FunctionSpec α}
    {constraints : List (FunctionSpec α)} {weights : List α} {f : Component α}
    (hf : make (.barrier t objective constraints weights) = .ok f) :
    ∃ (g : Component α) (φ : Barrier α g.dim), objective.make = .ok g ∧ f = .barrier φ ∧
      φ.objective = g.smooth ∧
      (∀ s ∈ constraints, ∃ g', s.make = .ok g' ∧ g'.dim = g.dim) ∧
      (∀ c ∈ φ.constraints, ∃ s ∈ constraints, ∃ g', s.make = .ok g' ∧ g'.any = ⟨g.dim, c⟩) := by
  rw [make] at hf
  obtain ⟨g, hg, hf⟩ := bind_eq_ok_iff.mp hf
  obtain ⟨gs, hgs, hf⟩ := bind_eq_ok_iff.mp hf
  have hgs := makeAll_eq_ok hgs
  cases hφ : makeBarrier t g gs weights with
  | error e =>
    rw [hφ] at hf
    exact nomatch hf
  | ok φ =>
    rw [hφ] at hf
    obtain rfl : Component.barrier φ = f := Except.ok.inj hf
    obtain ⟨ψ, hψ, hweights⟩ := bind_eq_ok_iff.mp hφ
    obtain ⟨hψ₀, hψcs⟩ := Barrier.compose_eq_ok hψ
    obtain ⟨hφ₀, hφcs⟩ := Barrier.foldlM_withWeight_eq_ok hweights
    rw [← hφcs] at hψcs
    refine ⟨g, φ, hg, rfl, hφ₀.trans hψ₀, fun s hs => ?_, fun c hc => ?_⟩
    · have hmem : s.make ∈ gs.map Except.ok := hgs ▸ List.mem_map_of_mem hs
      obtain ⟨g', hg', hmake⟩ := List.mem_map.mp hmem
      have hany : g'.any ∈ φ.constraints.map (Sigma.mk g.dim) := hψcs ▸ List.mem_map_of_mem hg'
      obtain ⟨c, -, hc⟩ := List.mem_map.mp hany
      exact ⟨g', hmake.symm, congrArg Sigma.fst hc.symm⟩
    · have hany : (⟨g.dim, c⟩ : (m : ℕ) × Smooth α m) ∈ gs.map Component.any :=
        hψcs ▸ List.mem_map_of_mem hc
      obtain ⟨g', hg', hc⟩ := List.mem_map.mp hany
      have hmem : Except.ok g' ∈ constraints.map make := hgs ▸ List.mem_map_of_mem hg'
      obtain ⟨s, hs, hmake⟩ := List.mem_map.mp hmem
      exact ⟨s, hs, g', hmake, hc⟩

/-- **All parts of a function that was made** can be made, and have its number of variables. -/
theorem IsPartOf.exists_make {s t : FunctionSpec α} (ht : t.IsPartOf s) {f : Component α}
    (hf : s.make = .ok f) : ∃ g, t.make = .ok g ∧ g.dim = f.dim := by
  induction ht generalizing f with
  | whole => exact ⟨f, hf, rfl⟩
  | objective _ ih =>
    obtain ⟨g, φ, hg, rfl, -⟩ := exists_of_make_barrier hf
    obtain ⟨g', hg', hdim⟩ := ih hg
    exact ⟨g', hg', hdim⟩
  | constraint hs _ ih =>
    obtain ⟨g, φ, -, rfl, -, hconstraints, -⟩ := exists_of_make_barrier hf
    obtain ⟨g', hg', hdim⟩ := hconstraints _ hs
    obtain ⟨h, hh, hdim'⟩ := ih hg'
    exact ⟨h, hh, hdim'.trans hdim⟩

/-- **A function that was made from quadratic functions and barriers** is well formed. -/
theorem WithoutFormulas.wellFormed {s : FunctionSpec α} (hs : s.WithoutFormulas) {f : Component α}
    (hf : s.make = .ok f) : f.WellFormed := by
  induction hs generalizing f with
  | dense a b c =>
    rw [make] at hf
    obtain ⟨q, -, rfl⟩ := exists_of_map_eq_ok (refusing_eq_ok hf)
    exact Component.wellFormed_quadratic q
  | rows a b c =>
    rw [make] at hf
    obtain ⟨q, -, rfl⟩ := exists_of_map_eq_ok (refusing_eq_ok hf)
    exact Component.wellFormed_quadratic q
  | linear b c =>
    rw [make] at hf
    obtain ⟨q, -, rfl⟩ := exists_of_map_eq_ok (refusing_eq_ok hf)
    exact Component.wellFormed_quadratic q
  | upper m entries b c =>
    rw [make] at hf
    obtain ⟨p, -, hf⟩ := bind_eq_ok_iff.mp hf
    obtain ⟨q, -, hf⟩ := bind_eq_ok_iff.mp hf
    obtain rfl := Except.ok.inj hf
    exact Component.wellFormed_quadratic q
  | sparse p b c =>
    rw [make] at hf
    obtain ⟨q, -, rfl⟩ := exists_of_map_eq_ok hf
    exact Component.wellFormed_quadratic q
  | barrier _ _ ih₀ ih =>
    obtain ⟨g, φ, hg, rfl, hφ, -, hconstraints⟩ := exists_of_make_barrier hf
    have hg := ih₀ hg
    refine Component.wellFormed_barrier hg.dim_pos (hφ ▸ hg.smooth) fun c hc => ?_
    obtain ⟨s, hs, g', hg', hany⟩ := hconstraints c hc
    have hc : (⟨g.dim, c⟩ : (m : ℕ) × Smooth α m).2.WellFormed := hany ▸ (ih s hs hg').smooth
    exact hc

end FunctionSpec

/-- **The law of well-formed functions.** Let a function be made of quadratic functions and
barriers, to any depth and over any scalars. It has at least one variable, and all its parts have as
many. At every point of this length there are a value, a gradient of this length, a Hessian of this
size and, of a barrier, a verdict on strict feasibility; at every other point each of these is
refused, and nothing is recorded. -/
theorem well_formed_law (s : FunctionSpec α) (hs : s.WithoutFormulas) (f : Component α)
    (hf : s.make = .ok f) :
    0 < f.dim ∧
    (∀ t : FunctionSpec α, t.IsPartOf s → ∃ g, t.make = .ok g ∧ g.dim = f.dim) ∧
    (∀ x : Array α, x.size = f.dim → ∃ (v : α) (g : Array α) (K : Dense α) (b : Option Bool),
      (f.evaluate x).outcome
        = .ok { value := .ok v, gradient := .ok g, hessian := .ok K, feasible := b.map .ok } ∧
      g.size = f.dim ∧ K.rows = f.dim ∧ K.cols = f.dim ∧ b.isSome = f.isBarrier) ∧
    (∀ x : Array α, x.size ≠ f.dim →
      f.evaluate x = pure {
        value := .error (.wrongLength x.size f.dim)
        gradient := .error (.wrongLength x.size f.dim)
        hessian := .error (.wrongLength x.size f.dim)
        feasible := if f.isBarrier then some (.error (.wrongLength x.size f.dim)) else none } ∧
      (Failure.wrongLength x.size f.dim : Failure Float).message?
        = some s!"input has length {x.size}, function dimension is {f.dim}") := by
  have hwell := hs.wellFormed hf
  refine ⟨hwell.dim_pos, fun t ht => ht.exists_make hf, fun x hx => ?_, fun x hx => ⟨?_, rfl⟩⟩
  · obtain ⟨v, hv⟩ := hwell.smooth.value_ok ⟨x, hx⟩
    obtain ⟨g, hg⟩ := hwell.smooth.gradient_ok ⟨x, hx⟩
    obtain ⟨K, hK⟩ := hwell.smooth.hessian_ok ⟨x, hx⟩
    obtain ⟨b, hb, hbarrier⟩ := hwell.feasible_ok ⟨x, hx⟩
    refine ⟨v, g.toArray, .ofMat K, b, ?_, g.size_toArray, rfl, rfl, hbarrier⟩
    rw [Component.outcome_evaluate hb, hv, hg, hK]
    rfl
  · unfold Component.evaluate
    rw [hwell.smooth.value_of_size_ne hx, hwell.smooth.gradient_of_size_ne hx,
      hwell.smooth.hessian_of_size_ne hx, f.feasible_of_size_ne hx]
    rfl

/-! ### A barrier over a barrier -/

namespace FunctionSpec

/-- A barrier at the weight zero over a barrier, with a constraint that is a barrier itself. -/
def nested : FunctionSpec Float :=
  .barrier 1 (.barrier 2 (.rows [#[1, 0], #[0, 1]] #[1, 2] 3) [.linear #[1, 1] (-1)] [3])
    [.linear #[0, 1] (-2), .barrier 1 (.upper 2 [⟨0, 1, 1⟩] #[0, 0] 0) [] []] [0]

theorem withoutFormulas_nested : nested.WithoutFormulas := by
  refine .barrier (.barrier (.rows _ _ _) ?_) ?_
  · exact List.forall_mem_singleton.mpr (.linear _ _)
  · refine List.forall_mem_cons.mpr ⟨.linear _ _, List.forall_mem_singleton.mpr ?_⟩
    exact .barrier (.upper _ _ _ _) fun s hs => absurd hs List.not_mem_nil

/-- It can be made, of two variables. -/
theorem exists_make_nested :
    ∃ f, nested.make = .ok f ∧ f.dim = 2 ∧ f.isBarrier = true := by
  have hmade : nested.make.toOption.map (fun f => (f.dim, f.isBarrier)) = some (2, true) := by
    decide +kernel
  cases hf : nested.make with
  | error e =>
    rw [hf] at hmade
    exact nomatch hmade
  | ok f =>
    rw [hf] at hmade
    obtain ⟨hdim, hbarrier⟩ := Prod.mk.inj (Option.some.inj hmade)
    exact ⟨f, rfl, hdim, hbarrier⟩

end FunctionSpec

/-- The law for a barrier over a barrier, at a point with an undefined coordinate and at a point
that is too short. -/
theorem well_formed_law_nested :
    FunctionSpec.nested.WithoutFormulas ∧
    ∃ f, FunctionSpec.nested.make = .ok f ∧ f.dim = 2 ∧
      (∃ (v : Float) (g : Array Float) (K : Dense Float) (b : Bool),
        (f.evaluate #[0 / 0, 1]).outcome
          = .ok { value := .ok v, gradient := .ok g, hessian := .ok K, feasible := some (.ok b) } ∧
        g.size = 2 ∧ K.rows = 2 ∧ K.cols = 2) ∧
      f.evaluate #[1] = pure {
        value := .error (.wrongLength 1 2)
        gradient := .error (.wrongLength 1 2)
        hessian := .error (.wrongLength 1 2)
        feasible := some (.error (.wrongLength 1 2)) } := by
  obtain ⟨f, hf, hdim, hbarrier⟩ := FunctionSpec.exists_make_nested
  obtain ⟨-, -, hright, hwrong⟩ :=
    well_formed_law FunctionSpec.nested FunctionSpec.withoutFormulas_nested f hf
  rw [hdim, hbarrier] at hright hwrong
  obtain ⟨v, g, K, b, hok, hsize, hrows, hcols, hsome⟩ := hright #[0 / 0, 1] rfl
  obtain ⟨b, rfl⟩ := Option.isSome_iff_exists.mp hsome
  exact ⟨FunctionSpec.withoutFormulas_nested, f, hf, hdim, ⟨v, g, K, b, hok, hsize, hrows, hcols⟩,
    (hwrong #[1] (by decide)).1⟩

end InteriorPoint
