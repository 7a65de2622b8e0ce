import BayesDiagram.Proofs.Inference.Ledger

/-! The sweep over valuations. What a query computes with diagrams it computes with their meanings
in any algebra that has products, restrictions and sums, and at each step it holds exactly the pins
of the factors that are left. -/
namespace BayesDiagram

variable {σ κ : Type} [Scalar σ] [Coefficient σ κ] {config : StoreConfig σ}

/-- Meanings of diagrams that the steps of a query respect. -/
structure Valuation (R : Reading σ κ config) (α : Type) where
  of : Diagram κ → α
  one : α
  times : α → α → α
  fix : Bit → Bool → α → α
  sumOut : Bit → α → α
  of_stored {d stored : Diagram κ} : d.Stored config stored → of stored = of d
  of_one : of (.constant (Coefficient.ofScalar 1)) = one
  of_product {f g result : Diagram κ} :
    R.Combines .product f g result → of result = times (of f) (of g)
  of_fixed {d result : Diagram κ} {bit : Bit} {value : Bool} :
    result.bits ⊆ d.bits.erase bit → R.Fixes bit value d result → of result = fix bit value (of d)
  of_summed {d low high result : Diagram κ} {bit : Bit} :
    low.bits ⊆ d.bits.erase bit → R.Fixes bit false d low →
    high.bits ⊆ d.bits.erase bit → R.Fixes bit true d high →
    R.Combines .sum low high result → of result = sumOut bit (of d)

namespace Valuation

variable {R : Reading σ κ config} {α : Type} (V : Valuation R α)

def productOf : List α → α
  | [] => V.one
  | first :: rest => rest.foldl V.times first

def eliminate (operations : BitOperations) (a : α) (bit : Bit) : α :=
  match operations.getD bit.id .sumOut with
  | .keep => a
  | .sumOut => V.sumOut bit a
  | .fixHigh => V.fix bit true a
  | .fixLow => V.fix bit false a

end Valuation

namespace Factor

open Store

variable {R : Reading σ κ config} {α : Type} (V : Valuation R α) {s : Store σ κ}
  {base : Root → Nat} {held : List Root}

/-- A step that turns held roots into one root, which shows a diagram over some bits with a known
meaning. -/
def Turns (V : Valuation R α) (base : Root → Nat) (s : Store σ κ) (step : StoreM σ κ Root)
    (scope : Finset Bit) (meaning : α) : Prop :=
  ∃ f d s', step s = .ok f s' ∧ s'.Ledger R base [f] ∧ s'.RootShows f d ∧ d.bits ⊆ scope ∧
    V.of d = meaning ∧ s.Spares base s'

/-! ### Products -/

def absorb (product factor : Root) : StoreM σ κ Root := do
  let result ← Store.apply product factor .product
  Store.pin result
  Store.unpin product
  Store.unpin factor
  discard Store.flushUnderPressure
  return result

theorem absorb_spec {f g : Root} {left right : Diagram κ} (ledger : s.Ledger R base [f, g])
    (leftShown : s.RootShows f left) (rightShown : s.RootShows g right) :
    Turns V base s (absorb f g) (left.bits ∪ right.bits) (V.times (V.of left) (V.of right)) := by
  obtain ⟨h, d, stored, s₁, run, grows, sound, shown, put, bits, combines⟩ :=
    apply_spec ledger.sound leftShown rightShown .product
  obtain ⟨pins₁, run₁, ledger₁⟩ := (ledger.grows grows sound).pin shown
  obtain ⟨pins₂, run₂, ledger₂⟩ := (ledger₁.perm (.swap f h [g])).unpin
  obtain ⟨pins₃, run₃, ledger₃⟩ := (ledger₂.perm (.swap g h [])).unpin
  obtain ⟨flushed, s', run₄, ledger₄, spares⟩ := ledger₃.flush
  refine ⟨h, stored, s', ?_, ledger₄, spares h stored ?_ shown, bits, ?_,
    fun r t pinned there => ?_⟩
  · rw [absorb, StoreM.bind_of_ok run, StoreM.bind_of_ok run₁, StoreM.bind_of_ok run₂,
      StoreM.bind_of_ok run₃, StoreM.bind_of_ok (StoreM.discard_of_ok run₄)]
    rfl
  · simp only [List.count_cons_self]
    omega
  · rw [V.of_stored put, V.of_product combines]
  · exact spares r t (by simp only; omega) (grows.rootShows there)

theorem one_spec (ledger : s.Ledger R base []) :
    Turns V base s (do let one ← Store.constant 1; Store.pin one; return one) ∅ V.one := by
  obtain ⟨f, d, stored, s₁, run, grows, sound, shown, put, bits, rfl⟩ :=
    constant_spec ledger.sound 1
  obtain ⟨pins, run₁, ledger₁⟩ := (ledger.grows grows sound).pin shown
  refine ⟨f, stored, { s₁ with pins }, ?_, ledger₁, shown, bits, ?_, fun r t _ there =>
    grows.rootShows there⟩
  · rw [StoreM.bind_of_ok run, StoreM.bind_of_ok run₁]
    rfl
  · rw [V.of_stored put, V.of_one]

theorem absorbAll_spec {f : Root} {d : Diagram κ} (live : List (Root × Diagram κ))
    (ledger : s.Ledger R base (f :: live.map Prod.fst)) (shown : s.RootShows f d)
    (allShown : ∀ pair ∈ live, s.RootShows pair.1 pair.2) {scope : Finset Bit}
    (bits : d.bits ⊆ scope) (allBits : ∀ pair ∈ live, pair.2.bits ⊆ scope) :
    Turns V base s ((live.map Prod.fst).foldlM absorb f) scope
      ((live.map fun pair => V.of pair.2).foldl V.times (V.of d)) := by
  induction live generalizing s f d with
  | nil => exact ⟨f, d, s, rfl, ledger, shown, bits, rfl, fun _ _ _ there => there⟩
  | cons pair live ih =>
    obtain ⟨g, right⟩ := pair
    have there := allShown (g, right) (.head live)
    have lent : s.Ledger R (fun r => base r + (live.map Prod.fst).count r) [f, g] := ledger.lend
    obtain ⟨h, product, s₁, run, ledger₁, shown₁, bits₁, means, spares⟩ :=
      absorb_spec V lent shown there
    have restShown (other : Root × Diagram κ) (mem : other ∈ live) :
        s₁.RootShows other.1 other.2 := by
      refine spares _ _ ?_ (allShown other (.tail _ mem))
      have := List.count_pos_iff.mpr (List.mem_map_of_mem (f := Prod.fst) mem)
      simp only
      omega
    have within : product.bits ⊆ scope :=
      bits₁.trans (Finset.union_subset bits (allBits (g, right) (.head live)))
    obtain ⟨f', d', s', run', ledger', shown', bits', means', spares'⟩ :=
      ih ledger₁.reclaim shown₁ restShown within fun other mem => allBits other (.tail _ mem)
    refine ⟨f', d', s', ?_, ledger', shown', bits', ?_, fun r t pinned there =>
      spares' r t pinned (spares r t (by simp only; omega) there)⟩
    · rw [List.map_cons, List.foldlM_cons, StoreM.bind_of_ok run, run']
    · rw [means', means]
      rfl

theorem product_spec (live : List (Root × Diagram κ))
    (ledger : s.Ledger R base (live.map Prod.fst))
    (shown : ∀ pair ∈ live, s.RootShows pair.1 pair.2) {scope : Finset Bit}
    (bits : ∀ pair ∈ live, pair.2.bits ⊆ scope) :
    Turns V base s (product (live.map Prod.fst)) scope
      (V.productOf (live.map fun pair => V.of pair.2)) := by
  cases live with
  | nil =>
    obtain ⟨f, d, s', run, ledger', shown', bits', spec⟩ := one_spec V ledger
    exact ⟨f, d, s', run, ledger', shown', bits'.trans (Finset.empty_subset scope), spec⟩
  | cons pair live =>
    exact absorbAll_spec V live ledger (shown pair (.head live))
      (fun other mem => shown other (.tail _ mem)) (bits pair (.head live))
      fun other mem => bits other (.tail _ mem)

/-! ### Bits -/

theorem replaceBy_spec {root : Root} (ledger : s.Ledger R base [root]) {step : StoreM σ κ Root}
    {scope : Finset Bit} {meaning : Diagram κ → Prop} (yields : s.YieldsRoot R step scope meaning)
    {a : α} (means : ∀ d, d.bits ⊆ scope → meaning d → V.of d = a) :
    Turns V base s (do replace root (← step)) scope a := by
  obtain ⟨f, d, stored, s₁, run, grows, sound, shown, put, bits, meant⟩ := yields
  obtain ⟨s', run', ledger', shown', spares⟩ := replace_spec (ledger.grows grows sound) shown
  refine ⟨f, stored, s', ?_, ledger', shown', bits, ?_, fun r t pinned there =>
    spares r t pinned (grows.rootShows there)⟩
  · rw [StoreM.bind_of_ok run, run']
  · rw [V.of_stored put, means d (put.bits_eq ▸ bits) meant]

def remaining (operations : BitOperations) (bits : Finset Bit) (bit : Bit) : Finset Bit :=
  if operations.getD bit.id .sumOut = .keep then bits else bits.erase bit

theorem remaining_foldl_mono (operations : BitOperations) (bits : List Bit)
    {small large : Finset Bit} (subset : small ⊆ large) :
    bits.foldl (remaining operations) small ⊆ bits.foldl (remaining operations) large := by
  induction bits generalizing small large with
  | nil => exact subset
  | cons bit bits ih =>
    refine ih ?_
    rw [remaining, remaining]
    split
    · exact subset
    · exact Finset.erase_subset_erase bit subset

theorem eliminateBit_spec (operations : BitOperations) {root : Root} {d : Diagram κ} (bit : Bit)
    (ledger : s.Ledger R base [root]) (shown : s.RootShows root d) :
    Turns V base s (eliminateBit operations root bit) (remaining operations d.bits bit)
      (V.eliminate operations (V.of d) bit) := by
  rw [eliminateBit, remaining, Valuation.eliminate]
  cases operations.getD bit.id .sumOut with
  | keep =>
    exact ⟨root, d, s, rfl, ledger, shown, Finset.Subset.refl _, rfl, fun _ _ _ there => there⟩
  | sumOut =>
    exact replaceBy_spec V ledger (marginalize_spec ledger.sound shown bit .sum)
      fun _ _ ⟨_, _, bitsLow, fixesLow, bitsHigh, fixesHigh, combines⟩ =>
        V.of_summed bitsLow fixesLow bitsHigh fixesHigh combines
  | fixHigh =>
    exact replaceBy_spec V ledger (restrict_spec ledger.sound shown bit true)
      fun _ bits fixes => V.of_fixed bits fixes
  | fixLow =>
    exact replaceBy_spec V ledger (restrict_spec ledger.sound shown bit false)
      fun _ bits fixes => V.of_fixed bits fixes

theorem eliminateBits_spec (operations : BitOperations) {root : Root} {d : Diagram κ}
    (bits : List Bit) (ledger : s.Ledger R base [root]) (shown : s.RootShows root d) :
    Turns V base s (bits.foldlM (eliminateBit operations) root)
      (bits.foldl (remaining operations) d.bits)
      (bits.foldl (V.eliminate operations) (V.of d)) := by
  induction bits generalizing s root d with
  | nil =>
    exact ⟨root, d, s, rfl, ledger, shown, Finset.Subset.refl _, rfl, fun _ _ _ there => there⟩
  | cons bit bits ih =>
    obtain ⟨f, d₁, s₁, run, ledger₁, shown₁, bits₁, means, spares⟩ :=
      eliminateBit_spec V operations bit ledger shown
    obtain ⟨f', d', s', run', ledger', shown', bits', means', spares'⟩ := ih ledger₁ shown₁
    refine ⟨f', d', s', ?_, ledger', shown', ?_, ?_, spares.trans spares'⟩
    · rw [List.foldlM_cons, StoreM.bind_of_ok run, run']
    · exact bits'.trans (remaining_foldl_mono operations bits bits₁)
    · rw [means', means]
      rfl

/-! ### Variables -/

abbrev Live (κ : Type) := Factor × Diagram κ

def bucket (name : String) (live : List (Live κ)) : List (Live κ) :=
  live.filter (·.1.scope.contains name)

def others (name : String) (live : List (Live κ)) : List (Live κ) :=
  live.filter (!·.1.scope.contains name)

def bucketScope (name : String) (live : List (Live κ)) : NameSet :=
  NameSet.union ((bucket name live).map (·.1.scope))

omit [Scalar σ] [Coefficient σ κ] in
theorem bucket_append_others (name : String) (live : List (Live κ)) :
    (bucket name live ++ others name live).Perm live :=
  List.filter_append_perm _ live

omit [Scalar σ] [Coefficient σ κ] in
theorem others_of_bucket_eq_nil {name : String} {live : List (Live κ)}
    (empty : bucket name live = []) : others name live = live := by
  have perm := bucket_append_others name live
  rw [empty, List.nil_append] at perm
  exact (List.filter_sublist.eq_of_length perm.length_eq)

/-- What a sweep step comes to on factors: nothing without a bucket, and otherwise the product of
the bucket with the operations of the bits applied. -/
theorem sweepVariable_eq (operations : BitOperations) (query : NameSet) (name : String)
    (bits : List Bit) (live : List (Live κ)) (largest : Nat) :
    (sweepVariable operations query (live.map Prod.fst, largest) (name, bits) :
        StoreM σ κ (List Factor × Nat)) =
      if bucket name live = [] then pure (live.map Prod.fst, largest)
      else do
        let root ← product ((bucket name live).map (·.1.root))
        let root ← bits.foldlM (eliminateBit operations) root
        let scope := bucketScope name live
        return ((others name live).map Prod.fst ++
          [⟨if query.contains name then scope else scope.erase name, root⟩],
          max largest scope.size) := by
  have bucketEq : (live.map Prod.fst).filter (·.scope.contains name) =
      (bucket name live).map Prod.fst := List.filter_map
  have othersEq : (live.map Prod.fst).filter (not ∘ fun f : Factor => f.scope.contains name) =
      (others name live).map Prod.fst := List.filter_map
  have roots : (((bucket name live).map Prod.fst).map Factor.root) =
      (bucket name live).map (·.1.root) := List.map_map
  have scopes : (((bucket name live).map Prod.fst).map Factor.scope) =
      (bucket name live).map (·.1.scope) := List.map_map
  simp only [sweepVariable, List.partition_eq_filter_filter, bucketEq, othersEq, roots, scopes,
    List.isEmpty_map, List.isEmpty_iff]
  split
  · next empty => rw [others_of_bucket_eq_nil empty]
  · rfl

def allBits (live : List (Live κ)) : Finset Bit :=
  live.foldr (·.2.bits ∪ ·) ∅

omit [Scalar σ] [Coefficient σ κ] in
theorem bits_subset_allBits {live : List (Live κ)} {pair : Live κ} (mem : pair ∈ live) :
    pair.2.bits ⊆ allBits live := by
  induction live with
  | nil => exact absurd mem List.not_mem_nil
  | cons first rest ih =>
    rcases List.mem_cons.mp mem with rfl | later
    · exact Finset.subset_union_left
    · exact (ih later).trans Finset.subset_union_right

omit [Scalar σ] [Coefficient σ κ] in
theorem allBits_subset {live : List (Live κ)} {scope : Finset Bit}
    (within : ∀ pair ∈ live, pair.2.bits ⊆ scope) : allBits live ⊆ scope := by
  induction live with
  | nil => exact Finset.empty_subset scope
  | cons first rest ih =>
    exact Finset.union_subset (within first (.head rest))
      (ih fun pair mem => within pair (.tail first mem))

inductive SweepStep (operations : BitOperations) (query : NameSet) (name : String)
    (bits : List Bit) (live : List (Live κ)) : List (Live κ) → Prop where
  | unmentioned (empty : bucket name live = []) : SweepStep operations query name bits live live
  | eliminated {factor : Factor} {d : Diagram κ} (mentioned : bucket name live ≠ [])
      (scope : factor.scope = if query.contains name then bucketScope name live
        else (bucketScope name live).erase name)
      (meaning : V.of d = bits.foldl (V.eliminate operations)
        (V.productOf ((bucket name live).map (V.of ·.2))))
      (left : d.bits ⊆ bits.foldl (remaining operations) ((allBits (bucket name live)))) :
      SweepStep operations query name bits live (others name live ++ [(factor, d)])

inductive Sweeps (operations : BitOperations) (query : NameSet) :
    List (String × List Bit) → List (Live κ) → List (Live κ) → Prop where
  | done (live : List (Live κ)) : Sweeps operations query [] live live
  | next {name : String} {bits : List Bit} {rest : List (String × List Bit)}
      {live mid live' : List (Live κ)} (step : SweepStep V operations query name bits live mid)
      (later : Sweeps operations query rest mid live') :
      Sweeps operations query ((name, bits) :: rest) live live'

theorem sweepVariable_spec (operations : BitOperations) (query : NameSet) (name : String)
    (bits : List Bit) (live : List (Live κ)) (largest : Nat)
    (ledger : s.Ledger R base (live.map (·.1.root)))
    (shown : ∀ pair ∈ live, s.RootShows pair.1.root pair.2) :
    ∃ live' largest' s',
      sweepVariable operations query (live.map Prod.fst, largest) (name, bits) s =
        .ok (live'.map Prod.fst, largest') s' ∧
      s'.Ledger R base (live'.map (·.1.root)) ∧
      (∀ pair ∈ live', s'.RootShows pair.1.root pair.2) ∧ s.Spares base s' ∧
      SweepStep V operations query name bits live live' := by
  rw [sweepVariable_eq]
  by_cases empty : bucket name live = []
  · rw [if_pos empty]
    exact ⟨live, largest, s, rfl, ledger, shown, fun _ _ _ there => there, .unmentioned empty⟩
  · rw [if_neg empty]
    let roots := (bucket name live).map fun pair => (pair.1.root, pair.2)
    have rootsEq : roots.map Prod.fst = (bucket name live).map (·.1.root) := List.map_map
    have meanings : roots.map (V.of ·.2) = (bucket name live).map (V.of ·.2) := List.map_map
    have rootShown (pair : Root × Diagram κ) (inRoots : pair ∈ roots) :
        s.RootShows pair.1 pair.2 := by
      obtain ⟨pair, inBucket, rfl⟩ := List.mem_map.mp inRoots
      exact shown pair (List.mem_of_mem_filter inBucket)
    have rootBits (pair : Root × Diagram κ) (inRoots : pair ∈ roots) :
        pair.2.bits ⊆ allBits (bucket name live) := by
      obtain ⟨pair, inBucket, rfl⟩ := List.mem_map.mp inRoots
      exact bits_subset_allBits inBucket
    -- the roots of the other factors are lent to others while the bucket is worked on
    have split := ledger.perm ((bucket_append_others name live).map (·.1.root)).symm
    rw [List.map_append, ← rootsEq] at split
    obtain ⟨f, d₁, s₁, run₁, ledger₁, shown₁, bits₁, means₁, spares₁⟩ :=
      product_spec V roots split.lend rootShown rootBits
    obtain ⟨g, d, s', run, ledger', shown', bits', means, spares⟩ :=
      eliminateBits_spec V operations bits ledger₁ shown₁
    have spared := spares₁.trans spares
    let left : NameSet := if query.contains name then bucketScope name live
      else (bucketScope name live).erase name
    let live' : List (Live κ) := others name live ++ [(⟨left, g⟩, d)]
    have held : s'.Ledger R base (live'.map (·.1.root)) := by
      rw [List.map_append]
      exact ledger'.reclaim.perm (List.perm_append_singleton g _).symm
    refine ⟨live', max largest (bucketScope name live).size, s', ?_, held, fun pair inLive => ?_,
      fun r t pinned there => spared r t (by simp only; omega) there,
      .eliminated empty rfl ?_ (bits'.trans (remaining_foldl_mono operations bits bits₁))⟩
    · rw [← rootsEq, StoreM.bind_of_ok run₁, StoreM.bind_of_ok run, List.map_append]
      rfl
    · rcases List.mem_append.mp inLive with other | new
      · refine spared _ _ ?_ (shown pair (List.mem_of_mem_filter other))
        have := List.count_pos_iff.mpr (List.mem_map_of_mem (f := (·.1.root)) other)
        simp only
        omega
      · rw [List.mem_singleton] at new
        subst new
        exact shown'
    · rw [means, means₁, meanings]

theorem sweep_spec (operations : BitOperations) (query : NameSet)
    (order : List (String × List Bit)) (live : List (Live κ))
    (ledger : s.Ledger R base (live.map (·.1.root)))
    (shown : ∀ pair ∈ live, s.RootShows pair.1.root pair.2) :
    ∃ live' largest s', sweep operations query order (live.map Prod.fst) s =
        .ok (live'.map Prod.fst, largest) s' ∧
      s'.Ledger R base (live'.map (·.1.root)) ∧
      (∀ pair ∈ live', s'.RootShows pair.1.root pair.2) ∧ s.Spares base s' ∧
      Sweeps V operations query order live live' := by
  unfold sweep
  generalize largestScope _ = largest
  induction order generalizing s live largest with
  | nil => exact ⟨live, largest, s, rfl, ledger, shown, fun _ _ _ there => there, .done live⟩
  | cons entry order ih =>
    obtain ⟨name, bits⟩ := entry
    obtain ⟨mid, largest₁, s₁, run₁, ledger₁, shown₁, spares₁, step⟩ :=
      sweepVariable_spec V operations query name bits live largest ledger shown
    obtain ⟨live', largest', s', run, ledger', shown', spares, later⟩ :=
      ih mid ledger₁ shown₁ largest₁
    refine ⟨live', largest', s', ?_, ledger', shown', spares₁.trans spares, .next step later⟩
    rw [List.foldlM_cons, StoreM.bind_of_ok run₁, run]

end Factor

end BayesDiagram
