import BayesDiagram.Proofs.Network.Dependencies
import BayesDiagram.Proofs.Network.Rows
import BayesDiagram.Proofs.Network.TopologicalOrder

/-! Validation accepts exactly the well-formed networks. The check walks through maps, whose orders
of iteration are arbitrary. Along any of them it comes to the same verdict, and no entry is without
a row when its probability is added up. -/
namespace BayesDiagram

namespace Network

open RationalReading

variable {σ : Type} {n : Network σ} {t : ConditionalTable σ} {declared : List Variable}

/-! ### Well-formed networks -/

structure Fits [Scalar σ] [RationalReading σ] (n : Network σ) (t : ConditionalTable σ) : Prop where
  declared : ∀ name ∈ t.scope, ∃ v ∈ n.declared, v.name = name
  distinct : t.scope.Nodup
  inDomain : ∀ assignment ∈ t.entries,
    List.Forall₂ (fun name index => index < n.arityOf name) t.scope assignment
  probabilities : ∀ (assignment : List Nat) (p : σ), t.entries[assignment]? = some p →
    Scalar.isFinite p = true ∧ 0 ≤ toRat p ∧ toRat p ≤ 1
  rows : ∀ value row, value :: row ∈ t.entries →
    |∑ value ∈ Finset.range (n.arityOf t.head), toRat (t.entry (value :: row)) - 1| ≤ rowTolerance

def IsParent (n : Network σ) (parent child : String) : Prop :=
  ∃ head t, n.table? head = some t ∧ t.head = child ∧ parent ∈ t.parents

structure WellFormed [Scalar σ] [RationalReading σ] (n : Network σ) : Prop where
  tables : ∀ head t, n.table? head = some t → n.Fits t
  acyclic : ∀ name, ¬Relation.TransGen n.IsParent name name

/-! ### Orders of iteration -/

/-- Orders in which a check walks through the entries of a table, through the sums of its rows and
through the tables. -/
structure Orders (n : Network σ) where
  entries : ConditionalTable σ → List (List Nat × σ)
  rows : ConditionalTable σ → Std.ExtTreeMap (List Nat) σ → List (List Nat × σ)
  tables : List (ConditionalTable σ)
  entries_perm : ∀ t, (entries t).Perm t.entries.toList
  rows_perm : ∀ t sums, (rows t sums).Perm sums.toList
  tables_perm : tables.Perm (n.tables.toList.map Prod.snd)

def Orders.byKey (n : Network σ) : n.Orders where
  entries t := t.entries.toList
  rows _ sums := sums.toList
  tables := n.tables.toList.map Prod.snd
  entries_perm _ := .refl _
  rows_perm _ _ := .refl _
  tables_perm := .refl _

variable {orders : n.Orders}

theorem mem_tables : t ∈ orders.tables ↔ ∃ head, n.table? head = some t := by
  rw [orders.tables_perm.mem_iff, List.mem_map]
  constructor
  · rintro ⟨⟨head, _⟩, mem, rfl⟩
    exact ⟨head, Std.ExtTreeMap.mem_toList_iff_getElem?_eq_some.mp mem⟩
  · rintro ⟨head, found⟩
    exact ⟨(head, t), Std.ExtTreeMap.mem_toList_iff_getElem?_eq_some.mpr found, rfl⟩

theorem isParent_of_dependencies {g : DependencyGraph}
    (run : (dependencies (n.declared.map Variable.name) orders.tables :
      Except (Error σ) DependencyGraph) = .ok g) : g.IsParent = n.IsParent := by
  funext parent child
  rw [(dependencies_spec run).2.2.2, IsParent]
  simp only [mem_tables, ← exists_and_right]
  exact propext exists_comm

/-! ### The check along orders -/

def rowOf : List Nat → Except Fault (List Nat)
  | [] => .error (.rangeStart 1 0)
  | _ :: row => .ok row

theorem headed_of_mapM (found : t.scope.mapM n.getVariable = .ok declared) : declared ≠ [] := by
  rintro rfl
  cases mapM_eq_ok.mp found

variable [Scalar σ] {sort : DependencyGraph.Toposort}

def visitEntry (t : ConditionalTable σ) (declared : List Variable)
    (sums : Std.ExtTreeMap (List Nat) σ) (entry : List Nat × σ) :
    Except (Failure σ) (Std.ExtTreeMap (List Nat) σ) := do
  Failure.liftError (checkEntry t declared entry.1 entry.2)
  let row ← Failure.liftFault (rowOf entry.1)
  return sums.insert row (sums.getD row 0 + entry.2)

def checkTableAlong (n : Network σ) (orders : n.Orders) (t : ConditionalTable σ) :
    Except (Failure σ) Unit := do
  let declared ← Failure.liftError (t.scope.mapM n.getVariable)
  if let some name := firstRepeated? [] t.scope then
    throw (.error (t.malformed (.repeatedName name)))
  let sums ← (orders.entries t).foldlM (visitEntry t declared) ∅
  (orders.rows t sums).forM fun (row, sum) => Failure.liftError (checkRow t row sum)

/-- The check of a network along some orders. -/
def validateAlong (sort : DependencyGraph.Toposort) (n : Network σ) (orders : n.Orders) :
    Except (Failure σ) Unit := do
  (n.tables.toList.map Prod.snd).forM (n.checkTableAlong orders)
  let g ← Failure.liftError (dependencies (n.declared.map Variable.name) orders.tables)
  Failure.liftError (g.checkAcyclicWith sort)

/-! ### No fault -/

theorem visitEntry_eq (headed : declared ≠ []) (sums : Std.ExtTreeMap (List Nat) σ)
    (entry : List Nat × σ) : visitEntry t declared sums entry =
      (Failure.liftError (checkEntry t declared entry.1 entry.2) >>= fun _ =>
        .ok (addEntry sums entry)) := by
  rw [visitEntry]
  cases checked : (checkEntry t declared entry.1 entry.2 : Except (Error σ) Unit) with
  | error e => rfl
  | ok _ =>
    obtain ⟨assignment, p⟩ := entry
    cases assignment with
    | nil => exact absurd (List.forall₂_nil_right_iff.mp (checkEntry_eq_ok.mp checked).1) headed
    | cons value row => rfl

theorem foldlM_visitEntry (headed : declared ≠ []) (entries : List (List Nat × σ))
    (sums : Std.ExtTreeMap (List Nat) σ) : entries.foldlM (visitEntry t declared) sums =
      (Failure.liftError (entries.forM fun entry => checkEntry t declared entry.1 entry.2) >>=
        fun _ => .ok (entries.foldl addEntry sums)) := by
  induction entries generalizing sums with
  | nil => rfl
  | cons entry entries ih =>
    rw [List.foldlM_cons, visitEntry_eq headed]
    show _ = (Failure.liftError (checkEntry t declared entry.1 entry.2 >>= fun _ =>
      entries.forM fun entry => checkEntry t declared entry.1 entry.2) >>= fun _ =>
        .ok (entries.foldl addEntry (addEntry sums entry)))
    cases (checkEntry t declared entry.1 entry.2 : Except (Error σ) Unit) with
    | error e => rfl
    | ok _ => exact ih (addEntry sums entry)

theorem checkTableAlong_eq_ok : n.checkTableAlong orders t = .ok () ↔
    ∃ declared, t.scope.mapM n.getVariable = .ok declared ∧ t.scope.Nodup ∧
      (∀ entry ∈ orders.entries t,
        (checkEntry t declared entry.1 entry.2 : Except (Error σ) Unit) = .ok ()) ∧
      ∀ row ∈ orders.rows t ((orders.entries t).foldl addEntry ∅),
        (checkRow t row.1 row.2 : Except (Error σ) Unit) = .ok () := by
  refine bind_eq_ok.trans (exists_congr fun declared => ?_)
  rw [Failure.liftError_eq_ok]
  refine and_congr_right fun found => ?_
  have nodup : firstRepeated? [] t.scope = none ↔ t.scope.Nodup ∧ ∀ name ∈ t.scope, name ∉ [] :=
    firstRepeated?_eq_none
  cases repeated : firstRepeated? [] t.scope with
  | some name =>
    rw [repeated] at nodup
    exact iff_of_false nofun fun parts => nomatch nodup.mpr ⟨parts.1, fun _ _ => List.not_mem_nil⟩
  | none =>
    have distinct : t.scope.Nodup := (nodup.mp repeated).1
    show ((orders.entries t).foldlM (visitEntry t declared) ∅ >>= fun sums =>
      (orders.rows t sums).forM fun row => Failure.liftError (checkRow t row.1 row.2)) = .ok () ↔ _
    rw [foldlM_visitEntry (headed_of_mapM found), bind_assoc, bind_unit_eq_ok,
      Failure.liftError_eq_ok, forM_eq_ok]
    refine ⟨fun ⟨entries, rows⟩ => ⟨distinct, entries, fun row mem => ?_⟩,
      fun ⟨_, entries, rows⟩ => ⟨entries, forM_eq_ok.mpr fun row mem => ?_⟩⟩
    · exact Failure.liftError_eq_ok.mp (forM_eq_ok.mp rows row mem)
    · exact Failure.liftError_eq_ok.mpr (rows row mem)

theorem checkTableAlong_ne_fault {f : Fault} :
    n.checkTableAlong orders t ≠ .error (.fault f) := by
  intro failed
  rcases bind_eq_error.mp failed with here | ⟨declared, found, failed⟩
  · exact Failure.liftError_ne_fault here
  · rw [Failure.liftError_eq_ok] at found
    cases repeated : firstRepeated? [] t.scope with
    | some name =>
      rw [repeated] at failed
      cases failed
    | none =>
      rw [repeated] at failed
      rcases bind_eq_error.mp failed with here | ⟨sums, -, failed⟩
      · rw [foldlM_visitEntry (headed_of_mapM found)] at here
        rcases bind_eq_error.mp here with checked | ⟨_, -, added⟩
        · exact Failure.liftError_ne_fault checked
        · cases added
      · obtain ⟨row, -, failed⟩ := exists_of_forM_eq_error failed
        exact Failure.liftError_ne_fault failed

theorem validateAlong_ne_fault {f : Fault} :
    validateAlong sort n orders ≠ .error (.fault f) := by
  intro failed
  rcases bind_eq_error.mp failed with here | ⟨_, -, failed⟩
  · obtain ⟨t, -, failed⟩ := exists_of_forM_eq_error here
    exact checkTableAlong_ne_fault failed
  · rcases bind_eq_error.mp failed with here | ⟨g, -, failed⟩
    · exact Failure.liftError_ne_fault here
    · exact Failure.liftError_ne_fault failed

theorem checkTableAlong_byKey :
    n.checkTableAlong (.byKey n) t = Failure.liftError (n.checkTable t) := by
  rw [checkTableAlong, checkTable, Failure.liftError_bind]
  cases found : t.scope.mapM n.getVariable with
  | error e => rfl
  | ok declared =>
    cases firstRepeated? [] t.scope with
    | some name => rfl
    | none =>
      show (t.entries.toList.foldlM (visitEntry t declared) ∅ >>= fun sums =>
        sums.toList.forM fun (row, sum) => Failure.liftError (checkRow t row sum)) =
          Failure.liftError ((t.entries.toList.forM fun entry =>
            checkEntry t declared entry.1 entry.2) >>= fun _ =>
              (rowSums t).toList.forM fun (row, sum) => checkRow t row sum)
      rw [foldlM_visitEntry (headed_of_mapM found), Failure.liftError_bind, rowSums_eq_foldl,
        Failure.liftError_forM, Failure.liftError_forM, bind_assoc]
      rfl

theorem validateAlong_byKey :
    validateAlong sort n (.byKey n) = Failure.liftError (n.validateWith sort) := by
  rw [validateAlong, validateWith, Failure.liftError_bind, Failure.liftError_bind,
    Failure.liftError_forM, funext fun t => checkTableAlong_byKey (n := n) (t := t)]
  rfl

/-! ### The verdict -/

variable [RationalReading σ]

theorem entries_pass (found : t.scope.mapM n.getVariable = .ok declared) :
    (∀ entry ∈ orders.entries t,
        (checkEntry t declared entry.1 entry.2 : Except (Error σ) Unit) = .ok ()) ↔
      ∀ (assignment : List Nat) (p : σ), t.entries[assignment]? = some p →
        List.Forall₂ (fun name index => index < n.arityOf name) t.scope assignment ∧
          Scalar.isFinite p = true ∧ 0 ≤ toRat p ∧ toRat p ≤ 1 := by
  have passes (assignment : List Nat) (p : σ) :
      (checkEntry t declared assignment p : Except (Error σ) Unit) = .ok () ↔
        List.Forall₂ (fun name index => index < n.arityOf name) t.scope assignment ∧
          Scalar.isFinite p = true ∧ 0 ≤ toRat p ∧ toRat p ≤ 1 := by
    rw [checkEntry_eq_ok, forall₂_arity found]
    refine and_congr_right fun _ => and_congr_right fun finite => ?_
    rw [RationalReading.le zero.1 finite, RationalReading.le finite one.1, zero.2, one.2]
  simp only [passes, (orders.entries_perm t).mem_iff, Prod.forall,
    Std.ExtTreeMap.mem_toList_iff_getElem?_eq_some]

theorem rows_pass
    (inDomain : ∀ assignment ∈ t.entries,
      List.Forall₂ (fun name index => index < n.arityOf name) t.scope assignment)
    (finite : ∀ (assignment : List Nat) (p : σ), t.entries[assignment]? = some p →
      Scalar.isFinite p = true) :
    (∀ row ∈ orders.rows t ((orders.entries t).foldl addEntry ∅),
        (checkRow t row.1 row.2 : Except (Error σ) Unit) = .ok ()) ↔
      ∀ value row, value :: row ∈ t.entries →
        |∑ value ∈ Finset.range (n.arityOf t.head), toRat (t.entry (value :: row)) - 1| ≤
          rowTolerance := by
  have total (row : List Nat) :=
    rowTotals_eq_sum (orders.entries_perm t) (fun bare => nomatch inDomain [] bare)
      (fun value (mem : value :: row ∈ t.entries) => (List.forall₂_cons.mp (inDomain _ mem)).1)
      finite
  have near (row : List Nat) (sum : σ)
      (summed : ((orders.entries t).foldl addEntry ∅)[row]? = some sum) :
      (checkRow t row sum : Except (Error σ) Unit) = .ok () ↔
        |∑ value ∈ Finset.range (n.arityOf t.head), toRat (t.entry (value :: row)) - 1| ≤
          rowTolerance := by
    have same : ((orders.entries t).foldl addEntry ∅).getD row 0 = sum := by
      rw [Std.ExtTreeMap.getD_eq_getD_getElem?, summed, Option.getD_some]
    obtain ⟨isFinite, sum⟩ := same ▸ total row
    rw [checkRow_eq_ok isFinite, sum]
  constructor
  · intro checked value row mem
    have summed := (mem_rowTotals (orders.entries_perm t)).mpr ⟨_, mem, rfl⟩
    have found := Std.ExtTreeMap.getElem?_eq_some_getElem summed
    refine (near row _ found).mp (checked (row, _) ((orders.rows_perm t _).mem_iff.mpr ?_))
    exact Std.ExtTreeMap.mem_toList_iff_getElem?_eq_some.mpr found
  · rintro rows ⟨row, sum⟩ mem
    have found := Std.ExtTreeMap.mem_toList_iff_getElem?_eq_some.mp
      ((orders.rows_perm t _).mem_iff.mp mem)
    obtain ⟨assignment, present, rfl⟩ := (mem_rowTotals (orders.entries_perm t)).mp
      (Std.ExtTreeMap.mem_iff_isSome_getElem?.mpr (Option.isSome_of_eq_some found))
    cases inDomain assignment present with
    | cons below rest => exact (near _ sum found).mpr (rows _ _ present)

theorem checkTableAlong_iff_fits : n.checkTableAlong orders t = .ok () ↔ n.Fits t := by
  rw [checkTableAlong_eq_ok]
  constructor
  · rintro ⟨declared, found, distinct, entries, rows⟩
    rw [entries_pass found] at entries
    have inDomain (assignment : List Nat) (mem : assignment ∈ t.entries) :=
      (entries assignment _ (Std.ExtTreeMap.getElem?_eq_some_getElem mem)).1
    refine ⟨fun name mem => ?_, distinct, inDomain, fun assignment p here =>
      (entries assignment p here).2,
      (rows_pass inDomain fun assignment p here => (entries assignment p here).2.1).mp rows⟩
    obtain ⟨v, here⟩ := answer_of_mapM_eq_ok found mem
    exact ⟨v, mem_of_getVariable here⟩
  · intro fits
    obtain ⟨declared, found⟩ : ∃ declared, t.scope.mapM n.getVariable = .ok declared :=
      exists_mapM_eq_ok fun name mem => by
        obtain ⟨v, known, rfl⟩ := fits.declared name mem
        exact exists_getVariable known
    refine ⟨declared, found, fits.distinct, (entries_pass found).mpr fun assignment p here =>
      ⟨fits.inDomain assignment
        (Std.ExtTreeMap.mem_iff_isSome_getElem?.mpr (Option.isSome_of_eq_some here)),
        fits.probabilities assignment p here⟩,
      (rows_pass fits.inDomain fun assignment p here =>
        (fits.probabilities assignment p here).1).mpr fits.rows⟩

theorem exists_dependencies (orders : n.Orders)
    (fits : ∀ head t, n.table? head = some t → n.Fits t) :
    ∃ g, (dependencies (n.declared.map Variable.name) orders.tables :
      Except (Error σ) DependencyGraph) = .ok g := by
  cases run : (dependencies (n.declared.map Variable.name) orders.tables :
      Except (Error σ) DependencyGraph) with
  | ok g => exact ⟨g, rfl⟩
  | error e =>
    obtain ⟨t, listed, name, place, unknown, -⟩ := dependencies_eq_error run
    obtain ⟨head, found⟩ := mem_tables.mp listed
    obtain ⟨v, mem, rfl⟩ := (fits head t found).declared name
      (List.mem_cons.mpr (place.symm))
    exact absurd (List.mem_map_of_mem mem) unknown

theorem validateAlong_iff (detects : sort.DetectsCycles) :
    validateAlong sort n orders = .ok () ↔ n.WellFormed := by
  have tables : (n.tables.toList.map Prod.snd).forM (n.checkTableAlong orders) = .ok () ↔
      ∀ head t, n.table? head = some t → n.Fits t := by
    simp only [forM_eq_ok, checkTableAlong_iff_fits, ← orders.tables_perm.mem_iff, mem_tables,
      forall_exists_index]
    exact forall_comm
  refine bind_unit_eq_ok.trans ⟨fun ⟨checked, linked⟩ => ?_, fun valid => ?_⟩
  · obtain ⟨g, run, acyclic⟩ := bind_eq_ok.mp linked
    rw [Failure.liftError_eq_ok] at run acyclic
    refine ⟨tables.mp checked, isParent_of_dependencies run ▸ ?_⟩
    exact (detects.checkAcyclicWith_eq_ok (dependencies_spec run).2.2.1).mp acyclic
  · obtain ⟨g, run⟩ := exists_dependencies orders valid.tables
    refine ⟨tables.mpr valid.tables, bind_eq_ok.mpr ⟨g, Failure.liftError_eq_ok.mpr run, ?_⟩⟩
    refine Failure.liftError_eq_ok.mpr
      ((detects.checkAcyclicWith_eq_ok (dependencies_spec run).2.2.1).mpr ?_)
    exact fun name => isParent_of_dependencies run ▸ valid.acyclic name

/-- With a sort that fails exactly on the graphs with a cycle, validation accepts exactly the
well-formed networks. Along any orders of iteration the check comes to this verdict, without a
fault. -/
theorem validate_accepts_wellFormed (sort : DependencyGraph.Toposort)
    (detects : sort.DetectsCycles) (n : Network Extended) :
    (n.validateWith sort = .ok () ↔ n.WellFormed) ∧
      validateAlong sort n (.byKey n) = Failure.liftError (n.validateWith sort) ∧
      ∀ orders : n.Orders, (validateAlong sort n orders = .ok () ↔ n.WellFormed) ∧
        ∀ f, validateAlong sort n orders ≠ .error (.fault f) := by
  refine ⟨?_, validateAlong_byKey, fun orders => ⟨validateAlong_iff detects, fun _ =>
    validateAlong_ne_fault⟩⟩
  rw [← Failure.liftError_eq_ok, ← validateAlong_byKey]
  exact validateAlong_iff detects

def fire (causes : List String) : Network Extended :=
  let declared : Network Extended :=
    { declared := [⟨"Fire", ["no", "yes"]⟩, ⟨"Alarm", ["off", "on"]⟩] }
  let alarm : ConditionalTable Extended := .empty "Alarm" ["Fire"]
  (declared.attach (.empty "Fire" causes)).attach
    ((alarm.set [0, 1] (.finite (1 / 10))).set [1, 1] (.finite (9 / 10)))

theorem validate_accepts_wellFormed_fire :
    DependencyGraph.Toposort.DetectsCycles DependencyGraph.toposort ∧
      (fire []).validate = .ok () ∧ (fire []).WellFormed ∧ ¬(fire ["Alarm"]).WellFormed := by
  have detects := DependencyGraph.detectsCycles_toposort
  have accepts (n : Network Extended) : n.validate = .ok () ↔ n.WellFormed :=
    (validate_accepts_wellFormed DependencyGraph.toposort detects n).1
  have valid : (fire []).validate = .ok () := eq_ok_of_isOk (by decide +kernel)
  have refused : (fire ["Alarm"]).validate.isOk = false := by decide +kernel
  refine ⟨detects, valid, (accepts _).mp valid, fun wellFormed => ?_⟩
  rw [(accepts _).mpr wellFormed] at refused
  cases refused

end Network

end BayesDiagram
