import BayesDiagram.Proofs.Inference.Sweep
import BayesDiagram.Proofs.Network.Names

/-! Scopes along a sweep. The live factors mention the relevant variables that are queried or not
handled yet, and every diagram stays within the bits of its scope. -/
namespace BayesDiagram

/-! ### Unions of sets of names -/

namespace NameSet

theorem mem_foldl_insert {names : List String} {set : NameSet} {name : String} :
    name ∈ names.foldl (·.insert ·) set ↔ name ∈ set ∨ name ∈ names := by
  induction names generalizing set with
  | nil => rw [List.foldl_nil, or_iff_left List.not_mem_nil]
  | cons first names ih =>
    rw [List.foldl_cons, ih, mem_insert, List.mem_cons]
    tauto

theorem mem_foldl_union {sets : List NameSet} {union : NameSet} {name : String} :
    name ∈ sets.foldl (fun union set => set.toList.foldl (·.insert ·) union) union ↔
      name ∈ union ∨ ∃ set ∈ sets, name ∈ set := by
  induction sets generalizing union with
  | nil => simp
  | cons set sets ih =>
    rw [List.foldl_cons, ih, mem_foldl_insert, Std.ExtTreeSet.mem_toList, List.exists_mem_cons_iff,
      or_assoc]

theorem mem_union {sets : List NameSet} {name : String} :
    name ∈ union sets ↔ ∃ set ∈ sets, name ∈ set := by
  rw [union, mem_foldl_union, or_iff_right Std.ExtTreeSet.not_mem_empty]

theorem mem_union_ofList {names : List String} {name : String} :
    name ∈ union [.ofList names] ↔ name ∈ names := by
  simp only [mem_union, List.mem_singleton, exists_eq_left, mem_ofList]

end NameSet

namespace Factor

variable {σ κ : Type} [Scalar σ] [Coefficient σ κ] {config : StoreConfig σ}
  {R : Reading σ κ config} {α : Type} {V : Valuation R α} {operations : BitOperations}
  {query relevant : NameSet} {bitsOf : String → List Bit} {done : List String} {name : String}
  {live live' : List (Live κ)}

/-! ### Bits of scopes -/

def scopeBits (bitsOf : String → List Bit) (scope : NameSet) : Finset Bit :=
  (scope.toList.flatMap bitsOf).toFinset

theorem mem_scopeBits {scope : NameSet} {bit : Bit} :
    bit ∈ scopeBits bitsOf scope ↔ ∃ name ∈ scope, bit ∈ bitsOf name := by
  simp only [scopeBits, List.mem_toFinset, List.mem_flatMap, Std.ExtTreeSet.mem_toList]

theorem scopeBits_mono {small large : NameSet} (subset : ∀ name ∈ small, name ∈ large) :
    scopeBits bitsOf small ⊆ scopeBits bitsOf large := by
  intro bit mem
  obtain ⟨name, inScope, inBits⟩ := mem_scopeBits.mp mem
  exact mem_scopeBits.mpr ⟨name, subset name inScope, inBits⟩

def Handles (operations : BitOperations) (query : NameSet) (bitsOf : String → List Bit)
    (name : String) : Prop :=
  ∀ bit ∈ bitsOf name, operations.getD bit.id .sumOut = .keep ↔ name ∈ query

theorem remaining_foldl_subset (operations : BitOperations) (bits : List Bit) (scope : Finset Bit) :
    bits.foldl (remaining operations) scope ⊆ scope := by
  induction bits generalizing scope with
  | nil => exact Finset.Subset.refl _
  | cons bit bits ih =>
    refine (ih _).trans ?_
    rw [remaining]
    split
    · exact Finset.Subset.refl _
    · exact Finset.erase_subset bit scope

theorem notMem_remaining_foldl {bits : List Bit} {bit : Bit} (mem : bit ∈ bits)
    (leaves : operations.getD bit.id .sumOut ≠ .keep) (scope : Finset Bit) :
    bit ∉ bits.foldl (remaining operations) scope := by
  induction bits generalizing scope with
  | nil => exact absurd mem List.not_mem_nil
  | cons first bits ih =>
    rw [List.foldl_cons]
    rcases List.mem_cons.mp mem with rfl | later
    · intro stays
      have := remaining_foldl_subset operations bits _ stays
      rw [remaining, if_neg leaves] at this
      exact Finset.notMem_erase bit scope this
    · exact ih later _

/-! ### The invariant -/

/-- What the live factors mention and depend on when some variables have been handled. -/
structure Scoped (bitsOf : String → List Bit) (relevant query : NameSet) (done : List String)
    (live : List (Live κ)) : Prop where
  within : ∀ pair ∈ live, pair.2.bits ⊆ scopeBits bitsOf pair.1.scope
  mentioned : ∀ name, (∃ pair ∈ live, name ∈ pair.1.scope) ↔
    name ∈ relevant ∧ (name ∈ query ∨ name ∉ done)

omit [Scalar σ] [Coefficient σ κ] in
theorem mem_bucket {pair : Live κ} :
    pair ∈ bucket name live ↔ pair ∈ live ∧ name ∈ pair.1.scope := by
  rw [bucket, List.mem_filter, Std.ExtTreeSet.contains_iff_mem]

omit [Scalar σ] [Coefficient σ κ] in
theorem mem_others {pair : Live κ} :
    pair ∈ others name live ↔ pair ∈ live ∧ name ∉ pair.1.scope := by
  rw [others, List.mem_filter, Bool.not_eq_true', ← Bool.not_eq_true,
    Std.ExtTreeSet.contains_iff_mem]

omit [Scalar σ] [Coefficient σ κ] in
theorem mem_bucketScope {other : String} :
    other ∈ bucketScope name live ↔ ∃ pair ∈ live, name ∈ pair.1.scope ∧ other ∈ pair.1.scope := by
  simp only [bucketScope, NameSet.mem_union, List.mem_map, mem_bucket]
  constructor
  · rintro ⟨set, ⟨pair, ⟨mem, here⟩, rfl⟩, there⟩
    exact ⟨pair, mem, here, there⟩
  · rintro ⟨pair, mem, here, there⟩
    exact ⟨pair.1.scope, ⟨pair, ⟨mem, here⟩, rfl⟩, there⟩

omit [Scalar σ] [Coefficient σ κ] in
theorem Scoped.bucket_ne_nil (tidy : Scoped bitsOf relevant query done live) :
    bucket name live ≠ [] ↔ name ∈ relevant ∧ (name ∈ query ∨ name ∉ done) := by
  rw [← tidy.mentioned, ne_eq, List.eq_nil_iff_forall_not_mem, not_forall_not]
  simp only [mem_bucket]

theorem mem_leftScope {other : String} :
    (other ∈ if query.contains name then bucketScope name live
      else (bucketScope name live).erase name) ↔
      other ∈ bucketScope name live ∧ (name ∈ query ∨ other ≠ name) := by
  by_cases queried : name ∈ query
  · rw [if_pos (Std.ExtTreeSet.contains_iff_mem.mpr queried)]
    simp only [queried, true_or, and_true]
  · rw [if_neg (mt Std.ExtTreeSet.contains_iff_mem.mp queried), NameSet.mem_erase]
    tauto

omit [Scalar σ] [Coefficient σ κ] in
theorem mentioned_eliminated {factor : Factor} {d : Diagram κ}
    (scope : factor.scope = if query.contains name then bucketScope name live
      else (bucketScope name live).erase name) (other : String) :
    (∃ pair ∈ others name live ++ [(factor, d)], other ∈ pair.1.scope) ↔
      (∃ pair ∈ live, other ∈ pair.1.scope) ∧ (name ∈ query ∨ other ≠ name) := by
  constructor
  · rintro ⟨pair, mem, there⟩
    rcases List.mem_append.mp mem with old | new
    · obtain ⟨inLive, absent⟩ := mem_others.mp old
      exact ⟨⟨pair, inLive, there⟩, .inr fun same => absent (same ▸ there)⟩
    · obtain rfl := List.mem_singleton.mp new
      obtain ⟨inBucket, keeps⟩ := mem_leftScope.mp (scope ▸ there)
      obtain ⟨pair, inLive, -, there⟩ := mem_bucketScope.mp inBucket
      exact ⟨⟨pair, inLive, there⟩, keeps⟩
  · rintro ⟨⟨pair, inLive, there⟩, keeps⟩
    by_cases here : name ∈ pair.1.scope
    · refine ⟨(factor, d), List.mem_append_right _ (.head _), scope ▸ mem_leftScope.mpr ?_⟩
      exact ⟨mem_bucketScope.mpr ⟨pair, inLive, here, there⟩, keeps⟩
    · exact ⟨pair, List.mem_append_left _ (mem_others.mpr ⟨inLive, here⟩), there⟩

theorem Scoped.step (tidy : Scoped bitsOf relevant query done live)
    (handles : name ∈ relevant → Handles operations query bitsOf name)
    (step : SweepStep V operations query name (bitsOf name) live live') :
    Scoped bitsOf relevant query (name :: done) live' := by
  cases step with
  | unmentioned empty =>
    refine ⟨tidy.within, fun other => (tidy.mentioned other).trans ?_⟩
    have unused := mt tidy.bucket_ne_nil.mpr (not_not.mpr empty)
    by_cases same : other = name
    · subst same
      simp only [List.mem_cons, true_or, not_true, or_false]
      tauto
    · simp only [List.mem_cons, same, false_or]
  | @eliminated factor d mentioned scope meaning left =>
    have used := tidy.bucket_ne_nil.mp mentioned
    have bucketBits : allBits (bucket name live) ⊆ scopeBits bitsOf (bucketScope name live) :=
      allBits_subset fun pair mem => by
        obtain ⟨inLive, here⟩ := mem_bucket.mp mem
        exact (tidy.within pair inLive).trans
          (scopeBits_mono fun other there => mem_bucketScope.mpr ⟨pair, inLive, here, there⟩)
    refine ⟨fun pair mem => ?_, fun other => ?_⟩
    · rcases List.mem_append.mp mem with old | new
      · exact tidy.within pair (mem_others.mp old).1
      · obtain rfl := List.mem_singleton.mp new
        intro bit inBits
        have stays := left inBits
        obtain ⟨other, inScope, owned⟩ :=
          mem_scopeBits.mp (bucketBits (remaining_foldl_subset operations _ _ stays))
        refine mem_scopeBits.mpr ⟨other, scope ▸ mem_leftScope.mpr ⟨inScope, ?_⟩, owned⟩
        by_contra! dropped
        obtain ⟨unqueried, rfl⟩ := dropped
        refine notMem_remaining_foldl owned (fun keeps => unqueried ?_) _ stays
        exact (handles used.1 bit owned).mp keeps
    · rw [mentioned_eliminated scope, tidy.mentioned, List.mem_cons]
      by_cases same : other = name
      · subst same
        tauto
      · simp only [same, ne_eq, not_false_eq_true, or_true, and_true, false_or]

theorem Scoped.sweep (tidy : Scoped bitsOf relevant query done live)
    (handles : ∀ name ∈ relevant, Handles operations query bitsOf name) {names : List String}
    (sweeps : Sweeps V operations query (names.map fun name => (name, bitsOf name)) live live') :
    Scoped bitsOf relevant query (names.reverse ++ done) live' := by
  induction names generalizing live done with
  | nil =>
    cases sweeps
    exact tidy
  | cons name names ih =>
    cases sweeps with
    | next step later =>
      rw [List.reverse_cons, List.append_assoc]
      exact ih (tidy.step (handles name) step) later

theorem Scoped.scope_subset (tidy : Scoped bitsOf relevant query done live)
    (handled : ∀ name ∈ relevant, name ∈ done) {pair : Live κ} (mem : pair ∈ live) :
    pair.2.bits ⊆ scopeBits bitsOf query := by
  refine (tidy.within pair mem).trans (scopeBits_mono fun name there => ?_)
  obtain ⟨isRelevant, queried | fresh⟩ := (tidy.mentioned name).mp ⟨pair, mem, there⟩
  · exact queried
  · exact absurd (handled name isRelevant) fresh

end Factor

end BayesDiagram
