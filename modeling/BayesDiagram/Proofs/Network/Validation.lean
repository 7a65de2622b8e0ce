import BayesDiagram.Network.Network
import BayesDiagram.Proofs.Network.Acyclic
import BayesDiagram.Proofs.Sequences
import Mathlib.Data.List.Forall2

/-! Validated networks. Every table has declared and different names in its scope, and entries for
values that its variables have. -/
namespace BayesDiagram

namespace Network

variable {σ : Type} {n : Network σ} {name : String} {t : ConditionalTable σ}

def arityOf (n : Network σ) (name : String) : Nat :=
  match n.declared.find? (·.name == name) with
  | some v => v.arity
  | none => 0

theorem arityOf_of_getVariable {v : Variable} (found : n.getVariable name = .ok v) :
    n.arityOf name = v.arity := by
  cases here : n.declared.find? (·.name == name) with
  | none =>
    rw [getVariable, here] at found
    cases found
  | some other =>
    rw [getVariable, here] at found
    cases found
    rw [arityOf, here]

theorem arities_of_mapM {names : List String} {declared : List Variable}
    (found : names.mapM n.getVariable = .ok declared) :
    declared.map Variable.arity = names.map n.arityOf := by
  rw [mapM_eq_ok] at found
  induction found with
  | nil => rfl
  | cons here _ ih => rw [List.map_cons, List.map_cons, arityOf_of_getVariable here, ih]

theorem forall₂_arity {names : List String} {declared : List Variable}
    (found : names.mapM n.getVariable = .ok declared) {assignment : List Nat} :
    List.Forall₂ (fun v index => index < v.arity) declared assignment ↔
      List.Forall₂ (fun name index => index < n.arityOf name) names assignment := by
  rw [← List.forall₂_map_left_iff (f := Variable.arity) (R := fun size index => index < size),
    arities_of_mapM found, List.forall₂_map_left_iff]

theorem exists_getVariable {v : Variable} (declared : v ∈ n.declared) :
    ∃ v', n.getVariable v.name = .ok v' := by
  rw [getVariable]
  split
  · next v' _ => exact ⟨v', rfl⟩
  · next none =>
    exact absurd (beq_self_eq_true v.name) (List.find?_eq_none.mp none v declared)

theorem mem_of_getVariable {v : Variable} (found : n.getVariable name = .ok v) :
    v ∈ n.declared ∧ v.name = name := by
  rw [getVariable] at found
  split at found
  · next first here =>
    cases found
    have same : (v.name == name) = true :=
      List.find?_some (p := fun u : Variable => u.name == name) here
    exact ⟨List.mem_of_find?_eq_some here, beq_iff_eq.mp same⟩
  · cases found

theorem valueIndex_lt {label : String} {index : Nat}
    (found : n.valueIndex name label = .ok index) : index < n.arityOf name := by
  obtain ⟨v, declared, found⟩ := bind_eq_ok.mp found
  rw [arityOf_of_getVariable declared]
  split at found
  · next i here =>
    cases found
    exact List.findIdx?_eq_some_iff_getElem.mp here |>.1
  · cases found

theorem firstRepeated?_eq_none {before names : List String} :
    firstRepeated? before names = none ↔ names.Nodup ∧ ∀ name ∈ names, name ∉ before := by
  induction names generalizing before with
  | nil => simp [firstRepeated?]
  | cons first names ih =>
    rw [firstRepeated?, List.nodup_cons, List.forall_mem_cons]
    by_cases old : first ∈ before
    · rw [if_pos (List.contains_iff_mem.mpr old)]
      exact ⟨nofun, fun ⟨_, new, _⟩ => absurd old new⟩
    · rw [if_neg (mt List.contains_iff_mem.mp old), ih]
      simp only [List.mem_cons, not_or]
      constructor
      · rintro ⟨nodup, fresh⟩
        exact ⟨⟨fun again => (fresh first again).1 rfl, nodup⟩, old, fun name mem =>
          (fresh name mem).2⟩
      · rintro ⟨⟨new, nodup⟩, -, fresh⟩
        exact ⟨nodup, fun name mem => ⟨fun same => new (same ▸ mem), fresh name mem⟩⟩

variable [Scalar σ]

theorem checkTable_eq_ok (run : (n.checkTable t : Except (Error σ) Unit) = .ok ()) :
    t.scope.Nodup ∧ ∃ declared, t.scope.mapM n.getVariable = .ok declared ∧
      (∀ assignment p, t.entries[assignment]? = some p →
        checkEntry t declared assignment p = .ok ()) ∧
      ∀ row sum, (rowSums t)[row]? = some sum → checkRow t row sum = .ok () := by
  obtain ⟨declared, found, run⟩ := bind_eq_ok.mp run
  cases repeated : firstRepeated? [] t.scope with
  | some name =>
    rw [repeated] at run
    cases run
  | none =>
    rw [repeated] at run
    obtain ⟨_, entries, rows⟩ := bind_eq_ok.mp run
    rw [forM_eq_ok] at entries rows
    refine ⟨(firstRepeated?_eq_none.mp repeated).1, declared, found, fun assignment p entry => ?_,
      fun row sum present => ?_⟩
    · exact entries (assignment, p) (Std.ExtTreeMap.mem_toList_iff_getElem?_eq_some.mpr entry)
    · exact rows (row, sum) (Std.ExtTreeMap.mem_toList_iff_getElem?_eq_some.mpr present)

theorem checkEntry_eq_ok {declared : List Variable} {assignment : List Nat} {p : σ} :
    (checkEntry t declared assignment p : Except (Error σ) Unit) = .ok () ↔
      List.Forall₂ (fun v index => index < v.arity) declared assignment ∧
        Scalar.isFinite p = true ∧ 0 ≤ p ∧ p ≤ 1 := by
  rw [checkEntry, List.forall₂_iff_zip]
  by_cases same : assignment.length = declared.length
  · rw [if_neg (not_not.mpr same)]
    refine bind_unit_eq_ok.trans ?_
    rw [forM_eq_ok]
    refine and_congr ⟨fun below => ⟨same.symm, fun {v index} mem => ?_⟩, fun fits pair mem => ?_⟩ ?_
    · exact ite_eq_ok.mp (below (v, index) mem)
    · exact ite_eq_ok.mpr (fits.2 mem)
    · exact ite_eq_ok
  · rw [if_pos same]
    exact ⟨nofun, fun fits => absurd fits.1.1.symm same⟩

theorem entry_fits (run : (n.checkTable t : Except (Error σ) Unit) = .ok ())
    {assignment : List Nat} (mem : assignment ∈ t.entries) :
    List.Forall₂ (fun name index => index < n.arityOf name) t.scope assignment := by
  obtain ⟨-, declared, found, entries, -⟩ := checkTable_eq_ok run
  exact (forall₂_arity found).mp
    (checkEntry_eq_ok.mp (entries assignment _ (Std.ExtTreeMap.getElem?_eq_some_getElem mem))).1

theorem validate_eq_ok (run : (n.validate : Except (Error σ) Unit) = .ok ()) :
    (∀ head t, n.table? head = some t → (n.checkTable t : Except (Error σ) Unit) = .ok ()) ∧
      ∃ g, (dependencies (n.declared.map Variable.name) (n.tables.toList.map Prod.snd) :
          Except (Error σ) DependencyGraph) = .ok g ∧
        ∃ order, g.toposort = .ok order := by
  obtain ⟨_, tables, run⟩ := bind_eq_ok.mp run
  obtain ⟨g, linked, acyclic⟩ := bind_eq_ok.mp run
  refine ⟨fun head t found => ?_, g, linked, DependencyGraph.checkAcyclicWith_eq_ok.mp acyclic⟩
  exact forM_eq_ok.mp tables t (List.mem_map.mpr ⟨(head, t),
    Std.ExtTreeMap.mem_toList_iff_getElem?_eq_some.mpr found, rfl⟩)

end Network

end BayesDiagram
