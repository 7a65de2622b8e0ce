import BayesDiagram.Closure

/-! The breadth-first closure holds exactly the points that can be reached. It succeeds wherever
every reachable point is known and has its successors. -/
namespace BayesDiagram

variable {ι ε : Type}

inductive Reached (next : ι → Except ε (List ι)) (starts : List ι) : ι → Prop where
  | start {point : ι} (mem : point ∈ starts) : Reached next starts point
  | step {point successor : ι} {points : List ι} (reached : Reached next starts point)
      (found : next point = .ok points) (mem : successor ∈ points) :
      Reached next starts successor

theorem Reached.mono {next : ι → Except ε (List ι)} {starts starts' : List ι} {point : ι}
    (reached : Reached next starts point) (within : ∀ start ∈ starts, Reached next starts' start) :
    Reached next starts' point := by
  induction reached with
  | start mem => exact within _ mem
  | step _ found mem ih => exact .step ih found mem

theorem Reached.mem_of_closed {next : ι → Except ε (List ι)} {starts : List ι} {holds : ι → Prop}
    (started : ∀ point ∈ starts, holds point)
    (closed : ∀ point points, holds point → next point = .ok points →
      ∀ successor ∈ points, holds successor)
    {point : ι} (reached : Reached next starts point) : holds point := by
  induction reached with
  | start mem => exact started _ mem
  | step _ found mem ih => exact closed _ _ ih found _ mem

theorem reached_iff_exists_start {next : ι → Except ε (List ι)} {starts : List ι} {point : ι} :
    Reached next starts point ↔ ∃ start ∈ starts, Reached next [start] point := by
  constructor
  · intro reached
    induction reached with
    | start mem => exact ⟨_, mem, .start (.head _)⟩
    | step _ found mem ih =>
      obtain ⟨start, first, path⟩ := ih
      exact ⟨start, first, .step path found mem⟩
  · rintro ⟨start, first, path⟩
    refine path.mono fun other mem => ?_
    rw [List.mem_singleton.mp mem]
    exact .start first

variable [Ord ι] [Std.TransOrd ι] [Std.LawfulEqOrd ι]

/-- A search in progress: what is queued or reached can be reached, what can be reached is fresh
or reached, and the successors of what is reached are queued or reached. -/
structure Searching (next : ι → Except ε (List ι)) (starts : List ι)
    (fresh reached : Std.TreeSet ι) (queue : List ι) : Prop where
  queued : ∀ point ∈ queue, Reached next starts point
  sound : ∀ point ∈ reached, Reached next starts point
  known : ∀ point, Reached next starts point → point ∈ fresh ∨ point ∈ reached
  started : ∀ point ∈ starts, point ∈ reached ∨ point ∈ queue
  closed : ∀ point ∈ reached, ∀ points, next point = .ok points →
    ∀ successor ∈ points, successor ∈ reached ∨ successor ∈ queue

namespace Searching

variable {next : ι → Except ε (List ι)} {starts points queue : List ι} {point : ι}
  {fresh reached : Std.TreeSet ι}

omit [Std.TransOrd ι] [Std.LawfulEqOrd ι] in
theorem finished (searching : Searching next starts fresh reached []) :
    point ∈ reached ↔ Reached next starts point := by
  refine ⟨searching.sound point, fun path => ?_⟩
  refine path.mem_of_closed (fun start mem => ?_) (fun p points mem found q later => ?_)
  · exact (searching.started start mem).resolve_right List.not_mem_nil
  · exact (searching.closed p mem points found q later).resolve_right List.not_mem_nil

theorem visit (searching : Searching next starts fresh reached (point :: queue))
    (found : next point = .ok points) :
    Searching next starts (fresh.erase point) (reached.insert point) (queue ++ points) where
  queued q mem := by
    rcases List.mem_append.mp mem with old | new
    · exact searching.queued q (.tail point old)
    · exact .step (searching.queued point (.head queue)) found new
  sound q mem := by
    rcases Std.TreeSet.mem_insert.mp mem with same | old
    · rw [← Std.LawfulEqOrd.eq_of_compare same]
      exact searching.queued point (.head queue)
    · exact searching.sound q old
  known q path := by
    by_cases same : compare point q = .eq
    · exact .inr (Std.TreeSet.mem_insert.mpr (.inl same))
    · rcases searching.known q path with mem | mem
      · exact .inl (Std.TreeSet.mem_erase.mpr ⟨same, mem⟩)
      · exact .inr (Std.TreeSet.mem_insert.mpr (.inr mem))
  started q mem := by
    rcases searching.started q mem with old | old
    · exact .inl (Std.TreeSet.mem_insert.mpr (.inr old))
    · rcases List.mem_cons.mp old with rfl | later
      · exact .inl Std.TreeSet.mem_insert_self
      · exact .inr (List.mem_append_left _ later)
  closed p mem points' found' q later := by
    rcases Std.TreeSet.mem_insert.mp mem with same | old
    · rw [← Std.LawfulEqOrd.eq_of_compare same, found, Except.ok.injEq] at found'
      subst found'
      exact .inr (List.mem_append_right _ later)
    · rcases searching.closed p old points' found' q later with mem | mem
      · exact .inl (Std.TreeSet.mem_insert.mpr (.inr mem))
      · rcases List.mem_cons.mp mem with rfl | queued
        · exact .inl Std.TreeSet.mem_insert_self
        · exact .inr (List.mem_append_left _ queued)

omit [Std.TransOrd ι] [Std.LawfulEqOrd ι] in
theorem skip (searching : Searching next starts fresh reached (point :: queue))
    (notFresh : point ∉ fresh) : Searching next starts fresh reached queue := by
  have here : point ∈ reached :=
    (searching.known point (searching.queued point (.head queue))).resolve_left notFresh
  have settled {q : ι} (place : q ∈ reached ∨ q ∈ point :: queue) : q ∈ reached ∨ q ∈ queue := by
    rcases place with old | mem
    · exact .inl old
    · rcases List.mem_cons.mp mem with rfl | later
      · exact .inl here
      · exact .inr later
  exact { searching with
    queued := fun q mem => searching.queued q (.tail point mem)
    started := fun q mem => settled (searching.started q mem)
    closed := fun p mem points found q later =>
      settled (searching.closed p mem points found q later) }

theorem closure_run (total : ∀ point, Reached next starts point → ∃ points, next point = .ok points)
    (searching : Searching next starts fresh reached queue) :
    ∃ result, closure next fresh reached queue = .ok result ∧
      ∀ point, point ∈ result ↔ Reached next starts point := by
  induction fresh, reached, queue using closure.induct next with
  | case1 fresh reached => exact ⟨reached, by rw [closure], fun point => searching.finished⟩
  | case2 fresh reached point queue e failed =>
    obtain ⟨points, found⟩ := total point (searching.queued point (.head queue))
    rw [found] at failed
    cases failed
  | case3 fresh reached point queue points found isFresh ih =>
    obtain ⟨result, run, mem⟩ := ih (searching.visit found)
    refine ⟨result, ?_, mem⟩
    rw [closure, found]
    simp only [isFresh, dif_pos, run]
  | case4 fresh reached point queue points found notFresh ih =>
    obtain ⟨result, run, mem⟩ := ih (searching.skip notFresh)
    refine ⟨result, ?_, mem⟩
    rw [closure, found]
    simp only [notFresh, dif_neg, not_false_iff, run]

end Searching

/-- The closure of some starting points within a set that knows all that they reach. -/
theorem mem_closure {next : ι → Except ε (List ι)} {starts : List ι} (known : Std.TreeSet ι)
    (total : ∀ point, Reached next starts point → ∃ points, next point = .ok points)
    (covers : ∀ point, Reached next starts point → point ∈ known) :
    ∃ result, closure next known ∅ starts = .ok result ∧
      ∀ point, point ∈ result ↔ Reached next starts point :=
  Searching.closure_run total
    { queued := fun _ mem => .start mem
      sound := fun _ mem => absurd mem Std.TreeSet.not_mem_emptyc
      known := fun point path => .inl (covers point path)
      started := fun _ mem => .inr mem
      closed := fun _ mem => absurd mem Std.TreeSet.not_mem_emptyc }

end BayesDiagram
