import BayesDiagram.Proofs.Diagram.Counting
import BayesDiagram.Proofs.Inference.Roles

/-! The answer to a query. Once all checks have passed, nothing fails: the tables are pinned, swept
and multiplied, and the product is divided by its sum over the queried variables. The answer holds
one pin, and the roots of others show what they showed. -/
namespace BayesDiagram

variable {σ κ : Type}

namespace InferenceM

variable {α β : Type} {w w' : Workspace σ κ}

theorem bind_of_ok {step : InferenceM σ κ α} {next : α → InferenceM σ κ β} {answer : α}
    (run : step w = .ok answer w') : (step >>= next) w = next answer w' := by
  simp only [bind, EStateM.bind, run]

theorem bind_of_error {step : InferenceM σ κ α} {next : α → InferenceM σ κ β} {failure : Failure σ}
    (run : step w = .error failure w') : (step >>= next) w = .error failure w' := by
  simp only [bind, EStateM.bind, run]

theorem bind_eq_ok {step : InferenceM σ κ α} {next : α → InferenceM σ κ β} {result : β} :
    (step >>= next) w = .ok result w' ↔
      ∃ answer mid, step w = .ok answer mid ∧ next answer mid = .ok result w' := by
  cases run : step w with
  | ok answer mid => simp [bind, EStateM.bind, run]
  | error failure mid => simp [bind, EStateM.bind, run]

theorem onStore_of_ok {step : StoreM σ κ α} {answer : α} {s : Store σ κ}
    (run : step w.store = .ok answer s) : onStore step w = .ok answer { w with store := s } := by
  simp only [onStore, run]

theorem discard_onStore_of_ok {step : StoreM σ κ α} {answer : α} {s : Store σ κ}
    (run : step w.store = .ok answer s) :
    (discard (onStore step)) w = .ok () { w with store := s } := by
  show EStateM.map (Function.const α ()) (onStore step) w = _
  rw [EStateM.map, onStore_of_ok run]

theorem inspect_of_ok {read : Store σ κ → Except Fault α} {answer : α}
    (found : read w.store = .ok answer) : inspect read w = .ok answer w :=
  onStore_of_ok (StoreM.inspect_of_ok found)

theorem checked_bind_ok {next : α → InferenceM σ κ β} (answer : α) :
    (checked (.ok answer) >>= next) w = next answer w := rfl

theorem checked_bind_error {next : α → InferenceM σ κ β} (e : Error σ) :
    (checked (.error e) >>= next) w = .error (.error e) w := rfl

theorem onStore_eq_ok {step : StoreM σ κ α} {answer : α} (run : onStore step w = .ok answer w') :
    ∃ s, step w.store = .ok answer s ∧ w' = { w with store := s } := by
  rw [onStore] at run
  split at run
  · next found s stepped =>
    cases run
    exact ⟨s, stepped, rfl⟩
  · cases run

theorem record_run (event : Event σ) :
    record event w = .ok () { w with journal := w.journal.push event } := rfl

end InferenceM

variable [Scalar σ] [Coefficient σ κ] {config : StoreConfig σ} {R : Reading σ κ config}
  {α : Type} (V : Valuation R α) {base : Root → Nat} {s : Store σ κ} {w : Workspace σ κ}
  {operations : BitOperations} {query : NameSet} {d : Diagram κ}

open Store Factor InferenceM

/-! ### The product of the relevant tables -/

def Factor.combine (operations : BitOperations) (query : NameSet)
    (order : List (String × List Bit)) (factors : List Factor) : StoreM σ κ Root := do
  factors.forM fun factor => Store.pin factor.root
  let (factors, _) ← sweep operations query order factors
  product (factors.map Factor.root)

theorem pinAll_spec {held : List Root} (live : List (Live κ)) (ledger : s.Ledger R base held)
    (shown : ∀ pair ∈ live, s.RootShows pair.1.root pair.2) :
    ∃ s', (live.map Prod.fst).forM (fun factor => Store.pin factor.root) s = .ok () s' ∧
      s'.Ledger R base (live.map (·.1.root) ++ held) ∧
      ∀ f d, s.RootShows f d → s'.RootShows f d := by
  induction live generalizing s held with
  | nil => exact ⟨s, rfl, ledger, fun _ _ there => there⟩
  | cons pair live ih =>
    obtain ⟨pins, run, ledger₁⟩ := ledger.pin (shown pair (.head live))
    obtain ⟨s', run', ledger', shows⟩ := ih ledger₁ fun other mem => shown other (.tail pair mem)
    refine ⟨s', ?_, ledger'.perm List.perm_middle, fun f d there => shows f d there⟩
    show (Store.pin pair.1.root >>= fun _ => _) s = _
    rw [StoreM.bind_of_ok run]
    exact run'

theorem combine_spec (operations : BitOperations) (query : NameSet)
    (order : List (String × List Bit)) (live : List (Live κ)) (ledger : s.Ledger R base [])
    (shown : ∀ pair ∈ live, s.RootShows pair.1.root pair.2) :
    ∃ f d s' left, combine operations query order (live.map Prod.fst) s = .ok f s' ∧
      s'.Ledger R base [f] ∧ s'.RootShows f d ∧ s.Spares base s' ∧
      Sweeps V operations query order live left ∧ d.bits ⊆ allBits left ∧
      V.of d = V.productOf (left.map (V.of ·.2)) := by
  obtain ⟨s₁, run₁, ledger₁, shows₁⟩ := pinAll_spec live ledger shown
  rw [List.append_nil] at ledger₁
  obtain ⟨left, largest, s₂, run₂, ledger₂, shown₂, spares₂, sweeps⟩ :=
    sweep_spec V operations query order live ledger₁ fun pair mem => shows₁ _ _ (shown pair mem)
  let roots := left.map fun pair => (pair.1.root, pair.2)
  have rootsEq : roots.map Prod.fst = left.map (·.1.root) := List.map_map
  have factorsEq : (left.map Prod.fst).map Factor.root = roots.map Prod.fst := by
    rw [rootsEq, List.map_map]
    rfl
  have rootShown (pair : Root × Diagram κ) (mem : pair ∈ roots) : s₂.RootShows pair.1 pair.2 := by
    obtain ⟨pair, inLeft, rfl⟩ := List.mem_map.mp mem
    exact shown₂ pair inLeft
  have rootBits (pair : Root × Diagram κ) (mem : pair ∈ roots) : pair.2.bits ⊆ allBits left := by
    obtain ⟨pair, inLeft, rfl⟩ := List.mem_map.mp mem
    exact bits_subset_allBits inLeft
  obtain ⟨f, d, s', run, ledger', shown', bits, means, spares⟩ :=
    product_spec V roots (rootsEq ▸ ledger₂) rootShown rootBits
  refine ⟨f, d, s', left, ?_, ledger', shown', fun r t pinned there => ?_, sweeps, bits, ?_⟩
  · rw [combine, StoreM.bind_of_ok run₁, StoreM.bind_of_ok run₂]
    dsimp only
    rw [factorsEq, run]
  · exact spares r t pinned (spares₂ r t pinned (shows₁ r t there))
  · rw [means, List.map_map]
    rfl

/-! ### Normalization -/

inductive Normalized (R : Reading σ κ config) (d : Diagram κ) (sum : κ) : σ → Diagram κ → Prop where
  | impossible {stored : Diagram κ} (zero : Coefficient.isZero sum = true)
      (put : (Diagram.constant (Coefficient.ofScalar (0 : σ))).Stored config stored) :
      Normalized R d sum 0 stored
  | divided {quotient stored : Diagram κ} (nonzero : Coefficient.isZero sum = false)
      (divides : R.Combines .divide d (.constant sum) quotient)
      (put : quotient.Stored config stored) :
      Normalized R d sum (Coefficient.toScalar sum) stored

theorem Engine.sumOut_eq :
    (Engine.normalize.sumOut : Root → Bit → StoreM σ κ Root) = eliminateBit ∅ := by
  funext root bit
  rw [normalize.sumOut, eliminateBit, Std.ExtTreeMap.getD_empty]

omit [Scalar σ] in
theorem constantValue?_of_constant {f : Root} {sum : κ} (shown : s.RootShows f (.constant sum)) :
    s.constantValue? f = .ok (some sum) := by
  rw [constantValue?, shown.edge_eq]
  rfl

omit [Scalar σ] in
theorem constantValue?_of_test {f : Root} {place : Nat} {offset scale : κ} {bit : Bit}
    {low high : Diagram κ} (shown : s.RootShows f (.test place offset scale bit low high)) :
    s.constantValue? f = .ok none := by
  rw [constantValue?, shown.edge_eq]
  rfl

namespace Engine

def divide (result total : Root) (query : NameSet) : InferenceM σ κ (Posterior σ) := do
  match ← inspect (Store.constantValue? · total) with
  | none =>
    let bits ← inspect (Store.bitsUsed · total)
    onStore (Store.unpin result)
    throw (.error (.notConstant (bits.map Bit.id)))
  | some likelihood =>
    if Coefficient.isZero likelihood then
      record .impossibleEvidence
      let root ← onStore do Factor.replace result (← Store.constant 0)
      return ⟨query.toList, 0, root⟩
    else
      let root ← onStore do Factor.replace result (← Store.apply result total .divide)
      return ⟨query.toList, Coefficient.toScalar likelihood, root⟩

theorem normalize_eq (result : Root) (query : NameSet) (queryBits : List Bit) :
    (normalize result query queryBits : InferenceM σ κ (Posterior σ)) = (do
      onStore (Store.pin result)
      let total ← onStore (queryBits.foldlM (eliminateBit ∅) result)
      onStore (Store.unpin total)
      divide result total query) := by
  rw [normalize, sumOut_eq]
  rfl

/-- The sum of a result over bits; the sum is not pinned any more when the division starts. -/
theorem normalize_sum {result : Root} (queryBits : List Bit)
    (ledger : w.store.Ledger R base [result]) (shown : w.store.RootShows result d) :
    ∃ total sum w', normalize result query queryBits w = divide result total query w' ∧
      w'.store.Ledger R base [result] ∧ w'.store.RootShows result d ∧
      w'.store.RootShows total sum ∧ w.store.Spares base w'.store ∧
      sum.bits ⊆ queryBits.foldl (remaining ∅) d.bits ∧
      V.of sum = queryBits.foldl (V.eliminate ∅) (V.of d) := by
  obtain ⟨pins₁, run₁, ledger₁⟩ := ledger.pin shown
  -- the result is lent while its sum is taken
  have lent : ({ w.store with pins := pins₁ } : Store σ κ).Ledger R
      (fun f => base f + [result].count f) [result] := ledger₁.lend
  obtain ⟨total, sum, s₂, run₂, ledger₂, shown₂, bits₂, means, spares₂⟩ :=
    eliminateBits_spec V ∅ queryBits lent shown
  have resultShown : s₂.RootShows result d := by
    refine spares₂ result d ?_ shown
    simp only [List.count_cons_self]
    omega
  obtain ⟨pins₃, run₃, ledger₃⟩ := ledger₂.reclaim.unpin
  let w₁ : Workspace σ κ := { w with store := { w.store with pins := pins₁ } }
  let w₂ : Workspace σ κ := { w with store := s₂ }
  let w₃ : Workspace σ κ := { w with store := { s₂ with pins := pins₃ } }
  have step₁ : onStore (Store.pin result) w = .ok () w₁ := onStore_of_ok run₁
  have step₂ : onStore (queryBits.foldlM (eliminateBit ∅) result) w₁ = .ok total w₂ :=
    onStore_of_ok run₂
  have step₃ : onStore (Store.unpin total) w₂ = .ok () w₃ := onStore_of_ok run₃
  refine ⟨total, sum, w₃, ?_, ledger₃, resultShown, shown₂, fun f t pinned there => ?_, bits₂,
    means⟩
  · rw [normalize_eq, bind_of_ok step₁, bind_of_ok step₂, bind_of_ok step₃]
  · exact spares₂ f t (by simp only; omega) there

theorem divide_constant {result total : Root} {sum : κ} (ledger : w.store.Ledger R base [result])
    (shown : w.store.RootShows result d) (totalShown : w.store.RootShows total (.constant sum)) :
    ∃ p w' stored, divide result total query w = .ok p w' ∧ w'.store.Ledger R base [p.root] ∧
      w'.store.RootShows p.root stored ∧ w.store.Spares base w'.store ∧ p.query = query.toList ∧
      stored.bits ⊆ d.bits ∧ Normalized R d sum p.likelihood stored := by
  rw [divide, bind_of_ok (inspect_of_ok (constantValue?_of_constant totalShown))]
  dsimp only
  cases zero : Coefficient.isZero sum with
  | true =>
    obtain ⟨f, _, stored, s₁, run₁, grows, sound, shown₁, put, bits, rfl⟩ :=
      constant_spec ledger.sound 0
    obtain ⟨s', run', ledger', shown', spares⟩ := replace_spec (ledger.grows grows sound) shown₁
    refine ⟨⟨query.toList, 0, f⟩, ⟨s', (w.journal.push .impossibleEvidence)⟩, stored, ?_,
      ledger', shown', fun r t pinned there => ?_, rfl, bits.trans (Finset.empty_subset _),
      .impossible zero put⟩
    · have step : onStore (do Factor.replace result (← Store.constant 0))
          { w with journal := w.journal.push .impossibleEvidence } =
          .ok f ⟨s', w.journal.push .impossibleEvidence⟩ :=
        onStore_of_ok (by rw [StoreM.bind_of_ok run₁, run'])
      rw [if_pos rfl, bind_of_ok (record_run .impossibleEvidence), bind_of_ok step]
      rfl
    · exact spares r t pinned (grows.rootShows there)
  | false =>
    obtain ⟨f, quotient, stored, s₁, run₁, grows, sound, shown₁, put, bits, divides⟩ :=
      apply_spec ledger.sound shown totalShown .divide
    obtain ⟨s', run', ledger', shown', spares⟩ := replace_spec (ledger.grows grows sound) shown₁
    refine ⟨⟨query.toList, Coefficient.toScalar sum, f⟩, ⟨s', w.journal⟩, stored, ?_, ledger',
      shown', fun r t pinned there => ?_, rfl, ?_, .divided zero divides put⟩
    · have step : onStore (do Factor.replace result (← Store.apply result total .divide)) w =
          .ok f ⟨s', w.journal⟩ :=
        onStore_of_ok (by rw [StoreM.bind_of_ok run₁, run'])
      rw [if_neg Bool.false_ne_true, bind_of_ok step]
      rfl
    · exact spares r t pinned (grows.rootShows there)
    · exact bits.trans (Finset.union_subset (Finset.Subset.refl _) (Finset.empty_subset _))

theorem divide_test {result total : Root} {place : Nat} {offset scale : κ} {bit : Bit}
    {low high : Diagram κ} (ledger : w.store.Ledger R base [result])
    (totalShown : w.store.RootShows total (.test place offset scale bit low high)) :
    ∃ bits w', divide result total query w = .error (.error (.notConstant bits)) w' ∧
      w'.store.Ledger R base [] ∧ w.store.Spares base w'.store := by
  obtain ⟨bits, listed, -⟩ := totalShown.bitsUsed_set
  obtain ⟨pins, run, ledger'⟩ := ledger.unpin
  let w' : Workspace σ κ := { w with store := { w.store with pins } }
  have step : onStore (Store.unpin result) w = .ok () w' := onStore_of_ok run
  refine ⟨(bits.toList.map Bit.mk).map Bit.id, w', ?_, ledger', fun _ _ _ there => there⟩
  rw [divide, bind_of_ok (inspect_of_ok (constantValue?_of_test totalShown))]
  dsimp only
  rw [bind_of_ok (inspect_of_ok listed), bind_of_ok step]
  rfl

end Engine

end BayesDiagram
