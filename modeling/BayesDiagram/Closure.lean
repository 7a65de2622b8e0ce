import Std.Data.TreeSet

/-! Breadth-first closure: everything that can be reached from some starting points. -/
namespace BayesDiagram

/-- The points reached from a queue by `next`, added to the ones reached before. Only points of
`fresh`, which are those not reached yet, are added; `next` may fail at a point. -/
def closure {ι ε : Type} [Ord ι] [Std.TransOrd ι] (next : ι → Except ε (List ι))
    (fresh reached : Std.TreeSet ι) : List ι → Except ε (Std.TreeSet ι)
  | [] => .ok reached
  | point :: queue =>
    match next point with
    | .error e => .error e
    | .ok points =>
      if _ : point ∈ fresh then
        closure next (fresh.erase point) (reached.insert point) (queue ++ points)
      else closure next fresh reached queue
termination_by queue => (fresh.size, queue.length)
decreasing_by
  · apply Prod.Lex.left
    have positive : fresh.size ≠ 0 := fun zero =>
      absurd ‹point ∈ fresh› (Std.TreeSet.not_mem_of_isEmpty
        (Std.TreeSet.isEmpty_eq_size_eq_zero.trans (by simp [zero])))
    rw [Std.TreeSet.size_erase, if_pos (Std.TreeSet.mem_iff_contains.mp ‹point ∈ fresh›)]
    omega
  · apply Prod.Lex.right
    simp

end BayesDiagram
