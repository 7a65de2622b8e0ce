import BayesDiagram.Proofs.Network.Acyclic
import Mathlib.Data.Set.Card
import Mathlib.Data.Set.Finite.List

/-! The check for cycles is exact. On a graph without cycles the search gets as deep as there are
variables at most, it leaves every variable after all its children, and so no parent is misplaced in
the order in which it left the variables. -/
namespace BayesDiagram

namespace DependencyGraph

variable {σ : Type} {g : DependencyGraph} {rank : String → Nat} {opened : String → Prop}
  {search mid search' : Search} {name parent child : String} {names : List String}

def Acyclic (g : DependencyGraph) : Prop :=
  ∀ name, ¬Relation.TransGen g.IsParent name name

theorem Ranks.acyclic (ranks : g.Ranks rank) : g.Acyclic := by
  intro name cycle
  have grows {first second : String} (path : Relation.TransGen g.IsParent first second) :
      rank first < rank second := by
    induction path with
    | single isParent => exact ranks _ _ isParent
    | tail _ isParent ih => exact ih.trans (ranks _ _ isParent)
  exact Nat.lt_irrefl _ (grows cycle)

def allAbove (g : DependencyGraph) (name : String) : Set String :=
  {other | other ∈ g.names ∧ Relation.TransGen g.IsParent other name}

theorem finite_allAbove (g : DependencyGraph) (name : String) : (g.allAbove name).Finite :=
  g.names.finite_toSet.subset fun _ mem => mem.1

theorem Acyclic.exists_ranks (acyclic : g.Acyclic) (closed : g.Closed) :
    ∃ rank, g.Ranks rank ∧ ∀ name ∈ g.names, rank name < g.size := by
  refine ⟨fun name => (g.allAbove name).ncard, fun parent child isParent => ?_,
    fun name mem => ?_⟩
  · -- what is above a parent is above its child, and so is the parent
    have known := (closed _ (isParent_iff.mp isParent)).1
    refine Set.ncard_lt_ncard ((Set.ssubset_iff_of_subset fun other mem => ?_).mpr
      ⟨parent, ⟨known, .single isParent⟩, fun mem => acyclic parent mem.2⟩)
      (g.finite_allAbove child)
    exact ⟨mem.1, mem.2.tail isParent⟩
  · have smaller : g.allAbove name ⊂ (g.names.toFinset : Set String) :=
      (Set.ssubset_iff_of_subset fun other mem => List.mem_toFinset.mpr mem.1).mpr
        ⟨name, List.mem_toFinset.mpr mem, fun self => acyclic name self.2⟩
    refine Nat.lt_of_lt_of_le (Set.ncard_lt_ncard smaller (Finset.finite_toSet _)) ?_
    rw [Set.ncard_coe_finset]
    exact List.toFinset_card_le _

/-! ### Searches on graphs without cycles -/

/-- A search that has left the children of every variable that it has left, and those before. -/
structure Search.Tidy (g : DependencyGraph) (search : Search) : Prop where
  found : search.left ⊆ search.found
  children : ∀ parent ∈ search.left, ∀ child, g.IsParent parent child → child ∈ search.left
  inOrder : search.left.Pairwise fun later earlier => ¬g.IsParent earlier later

/-- A search that went on until it had left some variables. It never leaves a variable that it had
found before. -/
structure Search.Settles (g : DependencyGraph) (search search' : Search) (names : List String) :
    Prop where
  extends' : search.Extends g search'
  tidy : search'.Tidy g
  fresh : ∀ name ∈ search'.left, name ∈ search.left ∨ name ∉ search.found
  left : ∀ name ∈ names, name ∈ search'.left

theorem Search.Settles.cons (first : search.Settles g mid [name])
    (rest : mid.Settles g search' names) : search.Settles g search' (name :: names) where
  extends' := first.extends'.trans rest.extends'
  tidy := rest.tidy
  fresh other mem := by
    rcases rest.fresh other mem with before | new
    · exact first.fresh other before
    · exact .inr fun old => new (first.extends'.found old)
  left other mem := by
    rcases List.mem_cons.mp mem with rfl | later
    · exact rest.extends'.left (first.left other (.head _))
    · exact rest.left other later

def Search.Opens (opened : String → Prop) (search : Search) : Prop :=
  ∀ name ∈ search.found, name ∈ search.left ∨ opened name

theorem Search.Settles.opens (settles : search.Settles g search' names)
    (opens : search.Opens opened) : search'.Opens opened := by
  intro name mem
  rcases settles.extends'.returned name mem with before | ⟨left, -⟩
  · exact (opens name before).imp_left fun left => settles.extends'.left left
  · exact .inl left

theorem Search.settles_foldlM {follow : Search → String → Except String Search}
    (visits : ∀ name ∈ names, ∀ search : Search, search.Tidy g → search.Opens opened →
      ∃ search', follow search name = .ok search' ∧ search.Settles g search' [name])
    (tidy : search.Tidy g) (opens : search.Opens opened) :
    ∃ search', names.foldlM follow search = .ok search' ∧ search.Settles g search' names := by
  induction names generalizing search with
  | nil =>
    exact ⟨search, rfl, .refl search, tidy, fun _ mem => .inl mem, fun _ mem =>
      absurd mem List.not_mem_nil⟩
  | cons name names ih =>
    obtain ⟨mid, run, first⟩ := visits name (.head names) search tidy opens
    obtain ⟨search', run', rest⟩ :=
      ih (fun other later => visits other (.tail name later)) first.tidy (first.opens opens)
    refine ⟨search', ?_, first.cons rest⟩
    rw [List.foldlM_cons, bind_of_eq_ok run, run']

theorem Search.Settles.leave (new : name ∉ search.found) (tidy : search.Tidy g)
    (loopless : ¬g.IsParent name name)
    (below : Search.Settles g { search with found := name :: search.found } search' names)
    (children : ∀ child, g.IsParent name child → child ∈ names) :
    search.Settles g { search' with left := name :: search'.left } [name] := by
  have notLeft : name ∉ search'.left := fun mem =>
    (below.fresh name mem).elim (fun left => new (tidy.found left)) fun fresh => fresh (.head _)
  have extended : search.Extends g { search' with left := name :: search'.left } := by
    refine ⟨fun other mem => below.extends'.found (.tail _ mem), fun other mem =>
      .tail _ (below.extends'.left mem), fun other mem => ?_⟩
    rcases below.extends'.returned other mem with before | ⟨left, loopless'⟩
    · rcases List.mem_cons.mp before with rfl | old
      · exact .inr ⟨.head _, loopless⟩
      · exact .inl old
    · exact .inr ⟨.tail _ left, loopless'⟩
  have left : name ∈ ({ search' with left := name :: search'.left } : Search).left := .head _
  refine ⟨extended, ⟨?_, fun parent mem child isParent => ?_, ?_⟩, fun other mem => ?_,
    List.forall_mem_singleton.mpr left⟩
  · exact List.cons_subset.mpr ⟨below.extends'.found (.head _), below.tidy.found⟩
  · rcases List.mem_cons.mp mem with rfl | later
    · exact .tail _ (below.left child (children child isParent))
    · exact .tail _ (below.tidy.children parent later child isParent)
  · -- a variable that was left before has its children left, and this one is not among them
    exact List.pairwise_cons.mpr ⟨fun earlier mem isParent =>
      notLeft (below.tidy.children earlier mem name isParent), below.tidy.inOrder⟩
  · rcases List.mem_cons.mp mem with rfl | later
    · exact .inr new
    · exact (below.fresh other later).imp_right fun fresh old => fresh (.tail _ old)

/-- On a graph with a rank, a search never comes back to its path, so the levels left, which exceed
the ranks left, suffice. -/
theorem descend_settles (ranks : g.Ranks rank) (closed : g.Closed)
    (bound : ∀ name ∈ g.names, rank name < g.size) {depth : Nat} (known : name ∈ g.names)
    (enough : g.size ≤ depth + rank name) (tidy : search.Tidy g)
    (opens : search.Opens fun other => rank other < rank name) :
    ∃ search', g.descend depth search name = .ok search' ∧ search.Settles g search' [name] := by
  induction depth generalizing search name with
  | zero =>
    have := bound name known
    omega
  | succ depth ih =>
    have loopless : ¬g.IsParent name name := fun loop => Nat.lt_irrefl _ (ranks name name loop)
    rw [descend]
    -- what was found is left again or on the path, where only variables of lower rank are
    by_cases old : name ∈ search.found
    · rw [if_pos (List.contains_iff_mem.mpr old)]
      refine ⟨search, rfl, .refl search, tidy, fun _ mem => .inl mem, fun other mem => ?_⟩
      rw [List.mem_singleton.mp mem]
      exact (opens name old).resolve_right (Nat.lt_irrefl _)
    · rw [if_neg (mt List.contains_iff_mem.mp old),
        if_neg fun loop => loopless (mem_childrenOf.mp (List.contains_iff_mem.mp loop))]
      have visits (child : String) (mem : child ∈ (g.childrenOf name).reverse) (search : Search)
          (tidy : search.Tidy g) (opens : search.Opens fun other => rank other ≤ rank name) :
          ∃ search', g.descend depth search child = .ok search' ∧
            search.Settles g search' [child] := by
        have isParent := mem_childrenOf.mp (List.mem_reverse.mp mem)
        have above := ranks name child isParent
        exact ih (closed _ (isParent_iff.mp isParent)).2 (by omega) tidy fun other mem =>
          (opens other mem).imp_right fun below => Nat.lt_of_le_of_lt below above
      have start : ({ search with found := name :: search.found } : Search).Tidy g :=
        ⟨fun _ mem => .tail _ (tidy.found mem), tidy.children, tidy.inOrder⟩
      have opensStart : ({ search with found := name :: search.found } : Search).Opens
          fun other => rank other ≤ rank name := by
        intro other mem
        rcases List.mem_cons.mp mem with rfl | before
        · exact .inr (Nat.le_refl _)
        · exact (opens other before).imp_right Nat.le_of_lt
      obtain ⟨below, run, settles⟩ := Search.settles_foldlM visits start opensStart
      refine ⟨{ below with left := name :: below.left }, by rw [bind_of_eq_ok run]; rfl, ?_⟩
      exact settles.leave old tidy loopless fun child isParent =>
        List.mem_reverse.mpr (mem_childrenOf.mpr isParent)

theorem Acyclic.exists_leavingOrder (acyclic : g.Acyclic) (closed : g.Closed) :
    ∃ order, g.leavingOrder = .ok order ∧ (∀ name ∈ g.names, name ∈ order) ∧
      order.Pairwise fun later earlier => ¬g.IsParent earlier later := by
  obtain ⟨rank, ranks, bound⟩ := acyclic.exists_ranks closed
  have tidy : ({} : Search).Tidy g :=
    ⟨fun _ mem => mem, fun _ mem => absurd mem List.not_mem_nil, List.Pairwise.nil⟩
  have opens : ({} : Search).Opens fun _ => False := fun _ mem => absurd mem List.not_mem_nil
  obtain ⟨search, run, settles⟩ :=
    Search.settles_foldlM (fun name (known : name ∈ g.names) search tidy opens =>
      descend_settles ranks closed bound known (Nat.le_add_right _ _) tidy fun other mem =>
        (opens other mem).imp_right False.elim) tidy opens
  exact ⟨search.left, map_eq_ok.mpr ⟨search, run, rfl⟩, settles.left, settles.tidy.inOrder⟩

theorem misplacedParent?_eq_none {before order : List String}
    (inOrder : order.Pairwise fun later earlier => ¬g.IsParent earlier later)
    (listed : ∀ child ∈ order, ∀ parent, g.IsParent parent child →
      parent ∈ before ∨ parent ∈ order) :
    g.misplacedParent? before order = none := by
  induction order generalizing before with
  | nil => rfl
  | cons first order ih =>
    obtain ⟨firstLast, inOrder⟩ := List.pairwise_cons.mp inOrder
    have placed : (g.parentsOf first).filter (!(first :: before).contains ·) = [] := by
      refine List.filter_eq_nil_iff.mpr fun parent isParent => ?_
      rw [Bool.not_eq_true', Bool.not_eq_false, List.contains_iff_mem, List.mem_cons]
      rcases listed first (.head order) parent isParent with old | here
      · exact .inr old
      · exact (List.mem_cons.mp here).imp_right fun later =>
          absurd isParent (firstLast parent later)
    rw [misplacedParent?, placed]
    refine ih inOrder fun child later parent isParent => ?_
    rcases listed child (.tail first later) parent isParent with old | here
    · exact .inl (.tail first old)
    · rcases List.mem_cons.mp here with rfl | later
      · exact .inl (.head before)
      · exact .inr later

/-- Whether a sort fails exactly on the graphs with a cycle. -/
def Toposort.DetectsCycles (sort : Toposort) : Prop :=
  ∀ g : DependencyGraph, g.Closed → ((∃ name, sort g = .error name) ↔ ¬g.Acyclic)

theorem Toposort.DetectsCycles.checkAcyclicWith_eq_ok {sort : Toposort}
    (detects : sort.DetectsCycles) (closed : g.Closed) :
    (g.checkAcyclicWith sort : Except (Error σ) Unit) = .ok () ↔ g.Acyclic := by
  rw [DependencyGraph.checkAcyclicWith_eq_ok, ← not_iff_not, ← detects g closed]
  cases sort g <;> simp

theorem detectsCycles_toposort : Toposort.DetectsCycles toposort := by
  intro g closed
  cases sorted : g.toposort with
  | ok order =>
    refine iff_of_false nofun (not_not.mpr ?_)
    exact (ranks_of_toposort closed sorted).acyclic
  | error name =>
    refine iff_of_true ⟨name, rfl⟩ fun acyclic => ?_
    obtain ⟨order, left, covers, inOrder⟩ := acyclic.exists_leavingOrder closed
    have placed : g.misplacedParent? [] order = none :=
      misplacedParent?_eq_none inOrder fun child _ parent isParent =>
        .inr (covers parent (closed _ (isParent_iff.mp isParent)).1)
    cases (toposort_eq_ok.mpr ⟨left, placed⟩).symm.trans sorted

end DependencyGraph

end BayesDiagram
