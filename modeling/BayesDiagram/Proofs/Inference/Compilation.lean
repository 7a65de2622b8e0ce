import BayesDiagram.Proofs.Diagram.Counting
import BayesDiagram.Proofs.Inference.Answer
import BayesDiagram.Proofs.Inference.Paths
import BayesDiagram.Proofs.Network.Validation

/-! Compilation. A table over different, declared and encoded variables is compiled: its diagram
follows the construction that its tag asks for, tests bits of the scope only and is pinned. Any
other table may be refused, with all pins as before. -/
namespace BayesDiagram

variable {σ κ : Type} [Scalar σ] [Coefficient σ κ] {config : StoreConfig σ}
  {R : Reading σ κ config} {α β γ : Type}

open Store InferenceM

/-! ### Steps that only add -/

/-- A step that adds to a sound store. It may fail only when a condition does not hold. -/
def Adds (R : Reading σ κ config) (condition : Prop) (w : Workspace σ κ)
    (step : InferenceM σ κ β) (post : β → Store σ κ → Prop) : Prop :=
  (∃ answer w', step w = .ok answer w' ∧ w.store.Grows w'.store ∧ w'.store.Sound R ∧
      post answer w'.store) ∨
    ¬condition ∧ ∃ failure w', step w = .error failure w' ∧ w.store.Grows w'.store ∧
      w'.store.Sound R

namespace Adds

variable {condition : Prop} {w : Workspace σ κ} {step : InferenceM σ κ β}
  {post : β → Store σ κ → Prop}

theorem pure {answer : β} (sound : w.store.Sound R) (holds : post answer w.store) :
    Adds R condition w (pure answer) post :=
  .inl ⟨answer, w, rfl, .refl _, sound, holds⟩

theorem bind {next : β → InferenceM σ κ γ} {post' : γ → Store σ κ → Prop}
    (adds : Adds R condition w step post)
    (follows : ∀ answer w', w.store.Grows w'.store → w'.store.Sound R → post answer w'.store →
      Adds R condition w' (next answer) post') :
    Adds R condition w (step >>= next) post' := by
  rcases adds with ⟨answer, w', run, grows, sound, holds⟩ | ⟨unfit, failure, w', run, spec⟩
  · rcases follows answer w' grows sound holds with
      ⟨result, w'', run', grows', sound', holds'⟩ | ⟨unfit, failure, w'', run', grows', sound'⟩
    · exact .inl ⟨result, w'', (bind_of_ok run).trans run', grows.trans grows', sound', holds'⟩
    · exact .inr ⟨unfit, failure, w'', (bind_of_ok run).trans run', grows.trans grows', sound'⟩
  · exact .inr ⟨unfit, failure, w', bind_of_error run, spec⟩

theorem mono {post' : β → Store σ κ → Prop} (adds : Adds R condition w step post)
    (weaker : ∀ answer s, w.store.Grows s → post answer s → post' answer s) :
    Adds R condition w step post' := by
  rcases adds with ⟨answer, w', run, grows, sound, holds⟩ | refuses
  · exact .inl ⟨answer, w', run, grows, sound, weaker answer w'.store grows holds⟩
  · exact .inr refuses

theorem checked {check : Except (Error σ) β} (sound : w.store.Sound R)
    (passes : condition → ∃ answer, check = .ok answer) :
    Adds R condition w (checked check) fun answer s => check = .ok answer ∧ s = w.store := by
  cases found : check with
  | ok answer => exact .inl ⟨answer, w, rfl, .refl _, sound, rfl, rfl⟩
  | error err =>
    refine .inr ⟨fun holds => ?_, .error err, w, rfl, .refl _, sound⟩
    obtain ⟨answer, same⟩ := passes holds
    rw [found] at same
    cases same

end Adds

/-! ### Meanings -/

/-- A reading of diagrams that follows how tables are built up. -/
structure Meaning (R : Reading σ κ config) (α : Type) where
  of : Diagram κ → α
  tree : DecisionTree σ → α
  combine : Operator → α → α → α
  of_stored {d stored : Diagram κ} : d.Stored config stored → of stored = of d
  of_constant (value : σ) : of (.constant (Coefficient.ofScalar value)) = tree (.leaf value)
  of_branches {t : DecisionTree σ} {d : Diagram κ} : R.Branches t d → of d = tree t
  of_combines {op : Operator} {f g d : Diagram κ} :
    R.Combines op f g d → of d = combine op (of f) (of g)

namespace Meaning

def blank (R : Reading σ κ config) : Meaning R Unit where
  of _ := ()
  tree _ := ()
  combine _ _ _ := ()
  of_stored _ := rfl
  of_constant _ := rfl
  of_branches _ := rfl
  of_combines _ := rfl

variable (M : Meaning R α) {condition : Prop} {w : Workspace σ κ} {scope : Finset Bit}

def Represents (meaning : α) (scope : Finset Bit) (f : Root) (s : Store σ κ) : Prop :=
  ∃ d, s.RootShows f d ∧ d.bits ⊆ scope ∧ M.of d = meaning

theorem Represents.mono {M : Meaning R α} {s s' : Store σ κ} {f : Root} {meaning : α}
    {scope' : Finset Bit} (represents : M.Represents meaning scope f s) (grows : s.Grows s')
    (subset : scope ⊆ scope') :
    M.Represents meaning scope' f s' := by
  obtain ⟨d, shown, bits, means⟩ := represents
  exact ⟨d, grows.rootShows shown, bits.trans subset, means⟩

theorem adds_of_yields {step : StoreM σ κ Root} {holds : Diagram κ → Prop} {meaning : α}
    (yields : w.store.YieldsRoot R step scope holds) (means : ∀ d, holds d → M.of d = meaning) :
    Adds R condition w (onStore step) (M.Represents meaning scope) := by
  obtain ⟨f, d, stored, s', run, grows, sound, shown, put, bits, holds⟩ := yields
  exact .inl ⟨f, { w with store := s' }, onStore_of_ok run, grows, sound, stored, shown, bits,
    (M.of_stored put).trans (means d holds)⟩

theorem constant_adds (sound : w.store.Sound R) (value : σ) (scope : Finset Bit) :
    Adds R condition w (onStore (constant value)) (M.Represents (M.tree (.leaf value)) scope) := by
  have made : Adds R condition w (onStore (constant value))
      (M.Represents (M.tree (.leaf value)) ∅) :=
    M.adds_of_yields (constant_spec sound value) fun d made => made ▸ M.of_constant value
  exact made.mono fun f s _ represents => represents.mono (.refl s) (Finset.empty_subset scope)

theorem apply_adds (sound : w.store.Sound R) {f g : Root} {left right : α}
    (isLeft : M.Represents left scope f w.store) (isRight : M.Represents right scope g w.store)
    (op : Operator) :
    Adds R condition w (onStore (apply f g op)) (M.Represents (M.combine op left right) scope) := by
  obtain ⟨d, shown, bits, rfl⟩ := isLeft
  obtain ⟨d', shown', bits', rfl⟩ := isRight
  have made : Adds R condition w (onStore (apply f g op))
      (M.Represents (M.combine op (M.of d) (M.of d')) (d.bits ∪ d'.bits)) :=
    M.adds_of_yields (apply_spec sound shown shown' op) fun _ combines => M.of_combines combines
  exact made.mono fun h s _ represents =>
    represents.mono (.refl s) (Finset.union_subset bits bits')

end Meaning

theorem DecisionTree.bits_complete {bits : List Bit} {leafAt : List Bool → β} :
    (complete bits leafAt).bits ⊆ bits.toFinset := by
  induction bits generalizing leafAt with
  | nil => exact Finset.empty_subset _
  | cons bit bits ih =>
    rw [List.toFinset_cons]
    exact Finset.insert_subset_insert bit (Finset.union_subset ih ih)

theorem DecisionTree.ordered_complete {bits : List Bit} {leafAt : List Bool → β}
    (sorted : bits.Pairwise fun bit later => bit.id < later.id) :
    (complete bits leafAt).Ordered := by
  induction bits generalizing leafAt with
  | nil => trivial
  | cons bit bits ih =>
    obtain ⟨precedes, sorted⟩ := List.pairwise_cons.mp sorted
    refine ⟨fun other mem => precedes other ?_, ih sorted, ih sorted⟩
    rcases Finset.mem_union.mp mem with low | high
    · exact List.mem_toFinset.mp (bits_complete low)
    · exact List.mem_toFinset.mp (bits_complete high)

theorem Meaning.complete_adds (M : Meaning R α) {condition : Prop} {w : Workspace σ κ}
    (sound : w.store.Sound R) {bits : List Bit} (proper : ∀ bit ∈ bits, bit.Proper)
    (sorted : condition → bits.Pairwise fun bit later => bit.id < later.id)
    {scope : Finset Bit} (within : bits.toFinset ⊆ scope) (leafAt : List Bool → σ) :
    Adds R condition w (onStore (ofOrderedTree (.complete bits leafAt)))
      (M.Represents (M.tree (.complete bits leafAt)) scope) := by
  have treeProper (bit : Bit) (mem : bit ∈ (DecisionTree.complete bits leafAt).bits) :
      bit.Proper := proper bit (List.mem_toFinset.mp (DecisionTree.bits_complete mem))
  rcases ofOrderedTree_spec sound treeProper with yields | ⟨unordered, fault, s', failed, spec⟩
  · have made : Adds R condition w (onStore (ofOrderedTree (.complete bits leafAt)))
        (M.Represents (M.tree (.complete bits leafAt)) _) :=
      M.adds_of_yields yields fun d built => M.of_branches built
    exact made.mono fun f s _ represents =>
      represents.mono (.refl s) (DecisionTree.bits_complete.trans within)
  · refine .inr ⟨fun holds => unordered (DecisionTree.ordered_complete (sorted holds)),
      .fault fault, { w with store := s' }, ?_, spec⟩
    simp only [onStore, failed]

namespace Compiler

variable (M : Meaning R α) {c : Compiler σ} {t : ConditionalTable σ} {w : Workspace σ κ}
  {name : String} {scope : Finset Bit}

structure Accepts (c : Compiler σ) (t : ConditionalTable σ) : Prop where
  nodup : t.scope.Nodup
  encoded : ∀ name ∈ t.scope, ∃ b, c.encoding.block? name = some b
  declared : ∀ name ∈ t.scope, ∃ v, c.network.getVariable name = .ok v

/-! ### What tables mean -/

section Tables

variable (c t)

def valuesOf (name : String) (valueAt : Nat → σ) : α :=
  M.tree (.complete (c.encoding.bitsOf name) fun path =>
    let value := Encoding.ofDigits path
    if value < c.network.arityOf name then valueAt value else 0)

def ratio (i k value : Nat) : σ :=
  if value = 0 then 1 else t.cumulative (some (k, value)) i / t.cumulative none i

def productOf (i : Nat) (parents : List (String × Nat)) (start : α) : α :=
  parents.foldl (fun product (parent, k) =>
    M.combine .product product (valuesOf M c parent (ratio t i k))) start

def cumulativeOf (i : Nat) : α :=
  let leak := t.cumulative none i
  if 0 < leak then productOf M c t i t.parents.zipIdx (M.tree (.leaf leak)) else M.tree (.leaf leak)

/-- The steps of the distribution function at some values of the head, added to a first meaning,
with the last value of the function. -/
def stepsOf (values : List Nat) (start : α × α) : α × α :=
  values.foldl (fun (joint, previous) i =>
    (M.combine .sum joint (M.combine .product
      (valuesOf M c t.head fun value => if value = i then 1 else 0)
      (M.combine .difference (cumulativeOf M c t i) previous)), cumulativeOf M c t i)) start

def tableOf : Strategy → α
  | .enumeration =>
    let bits := sortedBits c.encoding t.scope
    M.tree (.complete (bits.map ScopeBit.bit) fun path =>
      t.entry (ScopeBit.decode bits t.scope.length path))
  | .noisyMax =>
    let zero := M.tree (.leaf 0)
    (stepsOf M c t (List.range (c.network.arityOf t.head)) (zero, zero)).1

end Tables

def bitsOfScope (c : Compiler σ) (t : ConditionalTable σ) : Finset Bit :=
  Factor.scopeBits c.encoding.bitsOf (.ofList t.scope)

omit [Scalar σ] in
theorem mem_bitsOfScope {bit : Bit} :
    bit ∈ c.bitsOfScope t ↔ bit ∈ (sortedBits c.encoding t.scope).map ScopeBit.bit := by
  rw [bitsOfScope, Factor.mem_scopeBits, mem_sortedBits]
  simp only [NameSet.mem_ofList]

omit [Scalar σ] in
theorem bitsOf_subset (mem : name ∈ t.scope) :
    (c.encoding.bitsOf name).toFinset ⊆ c.bitsOfScope t := fun _ inBits =>
  Factor.mem_scopeBits.mpr ⟨name, NameSet.mem_ofList.mpr mem, List.mem_toFinset.mp inBits⟩

/-! ### Enumeration -/

theorem enumerate_adds (sound : w.store.Sound R) (encoding : c.encoding.Sound) :
    Adds R (c.Accepts t) w (c.enumerate t)
      (M.Represents (tableOf M c t .enumeration) (c.bitsOfScope t)) := by
  refine .bind (.checked sound fun accepts => ⟨_, scopeBits_eq accepts.encoded⟩) ?_
  rintro bits w' - sound' ⟨found, -⟩
  obtain rfl := scopeBits_eq_ok found
  have proper (bit : Bit) (mem : bit ∈ (sortedBits c.encoding t.scope).map ScopeBit.bit) :
      bit.Proper := by
    obtain ⟨name, -, owned⟩ := mem_sortedBits.mp mem
    exact encoding.proper_of_mem_bitsOf owned
  exact M.complete_adds sound' proper
    (fun accepts => sorted_sortedBits encoding accepts.nodup)
    (fun bit mem => mem_bitsOfScope.mpr (List.mem_toFinset.mp mem)) _

/-! ### The noisy-max construction -/

theorem sorted_bitsOf {e : Encoding} (encoding : e.Sound) (name : String) :
    (e.bitsOf name).Pairwise fun bit later => bit.id < later.id := by
  rw [Encoding.bitsOf]
  split
  · next b found =>
    obtain ⟨s, rfl⟩ := encoding.exists_slot found
    exact List.pairwise_map.mpr List.pairwise_lt_range'
  · exact .nil

theorem overValues_adds (sound : w.store.Sound R) (encoding : c.encoding.Sound)
    (inScope : name ∈ t.scope) (valueAt : Nat → σ) :
    Adds R (c.Accepts t) w (c.overValues name valueAt)
      (M.Represents (valuesOf M c name valueAt) (c.bitsOfScope t)) := by
  refine .bind (.checked sound fun accepts => accepts.declared name inScope) ?_
  rintro v w₁ - sound₁ ⟨declared, -⟩
  refine .bind (.checked sound₁ fun accepts => ?_) ?_
  · obtain ⟨b, here⟩ := accepts.encoded name inScope
    exact ⟨_, Encoding.bits_of_block? here⟩
  rintro bits w₂ - sound₂ ⟨encoded, -⟩
  obtain ⟨b, here, rfl⟩ := Encoding.bits_eq_ok.mp encoded
  rw [← Encoding.bitsOf_of_block? here, ← Network.arityOf_of_getVariable declared]
  exact M.complete_adds sound₂ (fun bit => encoding.proper_of_mem_bitsOf)
    (fun _ => sorted_bitsOf encoding name) (bitsOf_subset inScope) _

theorem products_add (sound : w.store.Sound R) (encoding : c.encoding.Sound) (i : Nat)
    {parents : List (String × Nat)} (inScope : ∀ entry ∈ parents, entry.1 ∈ t.scope) {start : Root}
    {meaning : α} (represents : M.Represents meaning (c.bitsOfScope t) start w.store) :
    Adds R (c.Accepts t) w
      (parents.foldlM (fun product (parent, k) => do
        let factor ← c.overValues parent (ratio t i k)
        onStore (Store.apply product factor .product)) start)
      (M.Represents (productOf M c t i parents meaning) (c.bitsOfScope t)) := by
  induction parents generalizing start meaning w with
  | nil => exact .pure sound represents
  | cons entry parents ih =>
    obtain ⟨parent, k⟩ := entry
    rw [List.foldlM_cons]
    refine .bind (.bind (overValues_adds M sound encoding (inScope _ (.head parents)) _)
      fun factor w₁ grows sound₁ isFactor =>
        M.apply_adds sound₁ (represents.mono grows (Finset.Subset.refl _)) isFactor .product) ?_
    intro product w₂ grows sound₂ isProduct
    exact ih sound₂ (fun other mem => inScope other (.tail _ mem)) isProduct

theorem cumulativeRoot_adds (sound : w.store.Sound R) (encoding : c.encoding.Sound) (i : Nat) :
    Adds R (c.Accepts t) w (c.cumulativeRoot t i)
      (M.Represents (cumulativeOf M c t i) (c.bitsOfScope t)) := by
  refine .bind (M.constant_adds sound _ (c.bitsOfScope t)) fun leak w₁ grows sound₁ isLeak => ?_
  rw [cumulativeOf]
  dsimp only
  split
  · exact products_add M sound₁ encoding i
      (fun entry mem => .tail _ (List.fst_mem_of_mem_zipIdx mem)) isLeak
  · exact .pure sound₁ isLeak

def headStep (c : Compiler σ) (t : ConditionalTable σ) :
    Root × Root → Nat → InferenceM σ κ (Root × Root)
  | (joint, previous), i => do
    let current ← c.cumulativeRoot t i
    let indicator ← c.overValues t.head fun value => if value = i then 1 else 0
    let step ← onStore (Store.apply current previous .difference)
    let term ← onStore (Store.apply indicator step .product)
    return (← onStore (Store.apply joint term .sum), current)

def BothRepresent (M : Meaning R α) (meanings : α × α) (scope : Finset Bit) (roots : Root × Root)
    (s : Store σ κ) : Prop :=
  M.Represents meanings.1 scope roots.1 s ∧ M.Represents meanings.2 scope roots.2 s

theorem headStep_adds (sound : w.store.Sound R) (encoding : c.encoding.Sound) (i : Nat)
    {roots : Root × Root} {meanings : α × α}
    (represent : BothRepresent M meanings (c.bitsOfScope t) roots w.store) :
    Adds R (c.Accepts t) w (c.headStep t roots i)
      (BothRepresent M (stepsOf M c t [i] meanings) (c.bitsOfScope t)) := by
  obtain ⟨joint, previous⟩ := roots
  obtain ⟨sum, last⟩ := meanings
  obtain ⟨isJoint, isPrevious⟩ := represent
  have same := Finset.Subset.refl (c.bitsOfScope t)
  refine .bind (cumulativeRoot_adds M sound encoding i) fun current w₁ grows₁ sound₁ isCurrent => ?_
  refine .bind (overValues_adds M sound₁ encoding (.head t.parents) _)
    fun indicator w₂ grows₂ sound₂ isIndicator => ?_
  refine .bind (M.apply_adds sound₂ (isCurrent.mono grows₂ same)
    (isPrevious.mono (grows₁.trans grows₂) same) .difference) fun step w₃ grows₃ sound₃ isStep => ?_
  refine .bind (M.apply_adds sound₃ (isIndicator.mono grows₃ same) isStep .product)
    fun term w₄ grows₄ sound₄ isTerm => ?_
  have early := (grows₁.trans grows₂).trans (grows₃.trans grows₄)
  refine .bind (M.apply_adds sound₄ (isJoint.mono early same) isTerm .sum)
    fun result w₅ grows₅ sound₅ isResult => ?_
  exact .pure sound₅ ⟨isResult,
    isCurrent.mono ((grows₂.trans (grows₃.trans grows₄)).trans grows₅) same⟩

theorem steps_add (sound : w.store.Sound R) (encoding : c.encoding.Sound) (values : List Nat)
    {roots : Root × Root} {meanings : α × α}
    (represent : BothRepresent M meanings (c.bitsOfScope t) roots w.store) :
    Adds R (c.Accepts t) w (values.foldlM (c.headStep t) roots)
      (BothRepresent M (stepsOf M c t values meanings) (c.bitsOfScope t)) := by
  induction values generalizing roots meanings w with
  | nil => exact .pure sound represent
  | cons i values ih =>
    rw [List.foldlM_cons]
    exact .bind (headStep_adds M sound encoding i represent)
      fun roots' w' _ sound' represent' => ih sound' represent'

theorem forM_declared_adds (sound : w.store.Sound R) {names : List String}
    (inScope : ∀ name ∈ names, name ∈ t.scope) :
    Adds R (c.Accepts t) w
      (names.forM fun parent => discard (checked (c.network.getVariable parent)))
      fun _ _ => True := by
  induction names generalizing w with
  | nil => exact .pure sound trivial
  | cons name names ih =>
    have first : Adds R (c.Accepts t) w (discard (checked (c.network.getVariable name)))
        fun _ _ => True := by
      cases found : c.network.getVariable name with
      | ok v => exact .inl ⟨(), w, rfl, .refl _, sound, trivial⟩
      | error err =>
        refine .inr ⟨fun accepts => ?_, .error err, w, rfl, .refl _, sound⟩
        obtain ⟨v, same⟩ := accepts.declared name (inScope name (.head _))
        rw [found] at same
        cases same
    exact .bind first fun _ w' _ sound' _ =>
      ih sound' fun other mem => inScope other (.tail _ mem)

theorem noisyMax_adds (sound : w.store.Sound R) (encoding : c.encoding.Sound) :
    Adds R (c.Accepts t) w (c.noisyMax t)
      (M.Represents (tableOf M c t .noisyMax) (c.bitsOfScope t)) := by
  refine .bind (.checked sound fun accepts => accepts.declared t.head (.head t.parents)) ?_
  rintro v w₁ - sound₁ ⟨declared, -⟩
  refine .bind (forM_declared_adds sound₁ fun parent mem => .tail _ mem) fun _ w₂ _ sound₂ _ => ?_
  refine .bind (M.constant_adds sound₂ 0 (c.bitsOfScope t)) fun zero w₃ _ sound₃ isZero => ?_
  rw [tableOf, Network.arityOf_of_getVariable declared]
  have start : BothRepresent M (M.tree (.leaf 0), M.tree (.leaf 0)) (c.bitsOfScope t) (zero, zero)
      w₃.store := ⟨isZero, isZero⟩
  refine .bind (steps_add M sound₃ encoding (List.range v.arity) start)
    fun roots w₄ _ sound₄ represent => ?_
  exact .pure sound₄ represent.1

/-! ### Compiled tables -/

theorem compileWith_adds (sound : w.store.Sound R) (encoding : c.encoding.Sound)
    (strategy : Strategy) :
    Adds R (c.Accepts t) w (c.compileWith t strategy)
      (M.Represents (tableOf M c t strategy) (c.bitsOfScope t)) := by
  cases strategy with
  | enumeration => exact enumerate_adds M sound encoding
  | noisyMax => exact noisyMax_adds M sound encoding

structure Compiled (M : Meaning R α) (c : Compiler σ) (s : Store σ κ) (t : ConditionalTable σ)
    (compiled : CompiledTable) : Prop where
  head : compiled.head = t.head
  parents : compiled.parents = t.parents
  represents : M.Represents (tableOf M c t t.strategy) (c.bitsOfScope t) compiled.root s

theorem compile_spec {base : Root → Nat} {held : List Root} (ledger : w.store.Ledger R base held)
    (encoding : c.encoding.Sound) :
    (∃ compiled w', c.compile t w = .ok compiled w' ∧
        w'.store.Ledger R base (compiled.root :: held) ∧
        w.store.Spares (fun f => base f + held.count f) w'.store ∧
        c.Compiled M w'.store t compiled) ∨
      ¬c.Accepts t ∧ ∃ failure w', c.compile t w = .error failure w' ∧
        w'.store.Ledger R base held ∧ w.store.Spares (fun f => base f + held.count f) w'.store := by
  cases found : c.scopeBits t.scope with
  | error err =>
    refine .inr ⟨fun accepts => ?_, .error err, w, ?_, ledger, fun _ _ _ shown => shown⟩
    · rw [scopeBits_eq accepts.encoded] at found
      cases found
    · rw [compile, found, checked_bind_error]
  | ok bits =>
    obtain rfl := scopeBits_eq_ok found
    rcases compileWith_adds M ledger.sound encoding t.strategy with
      ⟨root, w₁, run₁, grows, sound₁, d, shown, within, means⟩ |
      ⟨unfit, failure, w₁, run₁, grows, sound₁⟩
    · obtain ⟨pins, run₂, ledger₂⟩ := (ledger.grows grows sound₁).pin shown
      obtain ⟨flushed, s₃, run₃, ledger₃, spares⟩ := ledger₂.flush
      have shown₃ : s₃.RootShows root d := by
        refine spares root d ?_ shown
        simp only [List.count_cons_self]
        omega
      obtain ⟨nodes, run₄, -⟩ := shown₃.nodeCount_eq shown₃
      obtain ⟨support, run₅⟩ := countNonzero_total shown₃ (ledger₃.sound.keeps shown₃).ordered
        fun bit mem => mem_bitsOfScope.mp (within mem)
      let compiled : CompiledTable :=
        { head := t.head, parents := t.parents, entryCount := t.entries.size, nodeCount := nodes,
          support, strategy := t.strategy, root }
      let w₂ : Workspace σ κ := { w₁ with store := { w₁.store with pins } }
      let w₃ : Workspace σ κ := { w₁ with store := s₃ }
      refine .inl ⟨compiled, { w₃ with journal := w₃.journal.push (.compiled compiled) }, ?_,
        ledger₃, fun f d' pinned there => ?_, rfl, rfl, d, shown₃, within, means⟩
      · have step₂ : onStore (Store.pin root) w₁ = .ok () w₂ := onStore_of_ok run₂
        have step₃ : (discard (onStore Store.flushUnderPressure)) w₂ = .ok () w₃ :=
          discard_onStore_of_ok run₃
        have step₄ : inspect (Store.nodeCount · root) w₃ = .ok nodes w₃ := inspect_of_ok run₄
        have step₅ : inspect (Store.countNonzero · root
            ((sortedBits c.encoding t.scope).map ScopeBit.bit)) w₃ = .ok support w₃ :=
          inspect_of_ok run₅
        rw [compile, found, checked_bind_ok, bind_of_ok run₁, bind_of_ok step₂, bind_of_ok step₃,
          bind_of_ok step₄, bind_of_ok step₅]
        rfl
      · refine spares f d' ?_ (grows.rootShows there)
        simp only [List.count_cons] at pinned ⊢
        omega
    · refine .inr ⟨unfit, failure, w₁, ?_, ledger.grows grows sound₁, fun f d' _ there =>
        grows.rootShows there⟩
      rw [compile, found, checked_bind_ok, bind_of_error run₁]

theorem Compiled.mono {M : Meaning R α} {s s' : Store σ κ} {compiled : CompiledTable}
    (isCompiled : c.Compiled M s t compiled)
    (keeps : ∀ d, s.RootShows compiled.root d → s'.RootShows compiled.root d) :
    c.Compiled M s' t compiled := by
  obtain ⟨head, parents, d, shown, spec⟩ := isCompiled
  exact ⟨head, parents, d, keeps d shown, spec⟩

theorem compileAll_spec {base : Root → Nat} {held : List Root} (ledger : w.store.Ledger R base held)
    (encoding : c.encoding.Sound) (tables : List (ConditionalTable σ)) :
    (∃ results w', tables.mapM c.compile w = .ok results w' ∧
        w'.store.Ledger R base (results.map CompiledTable.root ++ held) ∧
        w.store.Spares (fun f => base f + held.count f) w'.store ∧
        List.Forall₂ (c.Compiled M w'.store) tables results) ∨
      (∃ t ∈ tables, ¬c.Accepts t) ∧ ∃ failure w', tables.mapM c.compile w = .error failure w' := by
  induction tables generalizing w held with
  | nil => exact .inl ⟨[], w, rfl, ledger, fun _ _ _ shown => shown, .nil⟩
  | cons t tables ih =>
    rw [List.mapM_cons]
    rcases compile_spec M (t := t) ledger encoding with
      ⟨compiled, w₁, run₁, ledger₁, spares₁, isCompiled⟩ | ⟨unfit, failure, w₁, run₁, -⟩
    · rcases ih ledger₁ with ⟨results, w₂, run₂, ledger₂, spares₂, all⟩ | ⟨unfit, failure, w₂, run₂⟩
      · refine .inl ⟨compiled :: results, w₂, ?_, ledger₂.perm List.perm_middle,
          fun f d pinned there => ?_, .cons (isCompiled.mono fun d there => ?_) all⟩
        · rw [bind_of_ok run₁, bind_of_ok run₂]
          rfl
        · refine spares₂ f d ?_ (spares₁ f d pinned there)
          simp only [List.count_cons] at pinned ⊢
          omega
        · refine spares₂ compiled.root d ?_ there
          simp only [List.count_cons_self]
          omega
      · obtain ⟨other, mem, refused⟩ := unfit
        refine .inr ⟨⟨other, .tail _ mem, refused⟩, failure, w₂, ?_⟩
        rw [bind_of_ok run₁, bind_of_error run₂]
    · exact .inr ⟨⟨t, .head _, unfit⟩, failure, w₁, bind_of_error run₁⟩

theorem heads_eq {M : Meaning R α} {s : Store σ κ} {tables : List (ConditionalTable σ)}
    {results : List CompiledTable} (all : List.Forall₂ (c.Compiled M s) tables results) :
    results.map CompiledTable.head = tables.map ConditionalTable.head := by
  induction all with
  | nil => rfl
  | cons here _ ih => rw [List.map_cons, List.map_cons, here.head, ih]

end Compiler

end BayesDiagram
