import Mathlib.Algebra.Order.Field.Rat
import BayesDiagram.Proofs.Exact.Pointwise
import BayesDiagram.Proofs.Inference.Roles
import BayesDiagram.Proofs.Network.Sums

/-! Elimination of variables over exact functions. The product of the live factors changes with
every variable as the query wants it: a queried variable stays, an observed one is fixed, and any
other is summed over all codes of its block. -/
namespace BayesDiagram

variable {config : StoreConfig Rat} {noTolerance : config.tolerance = 0}
  {operations : BitOperations}

namespace Role

def eliminate (size : Nat) (name : String) (f : Choice → Rat) : Role → Choice → Rat
  | queried, v => f v
  | observed value, v => f (Function.update v name value)
  | hidden, v => ∑ value ∈ Finset.range size, f (Function.update v name value)

theorem eliminate_mul_left (role : Role) {size : Nat} {name : String} {factor f : Choice → Rat}
    {v : Choice} (constant : ∀ value, factor (Function.update v name value) = factor v) :
    role.eliminate size name (fun u => factor u * f u) v =
      factor v * role.eliminate size name f v := by
  cases role with
  | queried => rfl
  | observed value =>
    show factor (Function.update v name value) * _ = factor v * _
    rw [constant]
    rfl
  | hidden => simp only [eliminate, constant, Finset.mul_sum]

end Role

/-! ### Functions of the bits -/

theorem sum_range_double (f : Nat → Rat) (n : Nat) :
    ∑ i ∈ Finset.range (2 * n), f i = ∑ i ∈ Finset.range n, (f (2 * i) + f (2 * i + 1)) := by
  induction n with
  | zero => rfl
  | succ n ih =>
    rw [Nat.mul_succ, Finset.sum_range_succ, Finset.sum_range_succ, Finset.sum_range_succ, ih]
    ring

namespace Valuation

def pointwise (noTolerance : config.tolerance = 0) :
    Valuation (Reading.exact noTolerance) ((Bit → Bool) → Rat) where
  of d a := d.value a
  one _ := 1
  times f g a := f a * g a
  fix bit value f a := f (Function.update a bit value)
  sumOut bit f a := f (Function.update a bit false) + f (Function.update a bit true)
  of_stored := @Diagram.Stored.function_eq config noTolerance
  of_one := funext fun _ => Diagram.value_constant _
  of_product combines := funext combines
  of_fixed bits fixes := funext (Store.value_of_fixes bits fixes)
  of_summed bitsLow fixesLow bitsHigh fixesHigh combines := funext fun a => by
    dsimp only
    rw [← Store.value_of_fixes bitsLow fixesLow, ← Store.value_of_fixes bitsHigh fixesHigh]
    exact combines a

theorem productOf_pointwise (fs : List ((Bit → Bool) → Rat)) (a : Bit → Bool) :
    (pointwise noTolerance).productOf fs a = (fs.map (· a)).prod := by
  have folded (f : (Bit → Bool) → Rat) (rest : List ((Bit → Bool) → Rat)) :
      rest.foldl (pointwise noTolerance).times f a = f a * (rest.map (· a)).prod := by
    induction rest generalizing f with
    | nil => exact (mul_one _).symm
    | cons g rest ih =>
      rw [List.foldl_cons, ih, List.map_cons, List.prod_cons, ← mul_assoc]
      rfl
  cases fs with
  | nil => rfl
  | cons f rest => exact folded f rest

variable {bits : List Bit} (f : (Bit → Bool) → Rat)

theorem foldl_eliminate_queried (assigned : Role.queried.Assigned operations bits) :
    bits.foldl ((pointwise noTolerance).eliminate operations) f = f := by
  induction bits generalizing f with
  | nil => rfl
  | cons bit bits ih =>
    have keeps : (pointwise noTolerance).eliminate operations f bit = f := by
      rw [eliminate, assigned 0 bit rfl, Role.operation]
    rw [List.foldl_cons, keeps, ih f assigned.tail]

theorem foldl_eliminate_observed {value : Nat}
    (assigned : (Role.observed value).Assigned operations bits) (a : Bit → Bool) :
    bits.foldl ((pointwise noTolerance).eliminate operations) f a = f (Bit.write bits value a) := by
  induction bits generalizing f value with
  | nil => rfl
  | cons bit bits ih =>
    have fixes : (pointwise noTolerance).eliminate operations f bit =
        fun a => f (Function.update a bit (value.testBit 0)) := by
      rw [eliminate, assigned 0 bit rfl, Role.operation]
      cases value.testBit 0 <;> rfl
    rw [List.foldl_cons, fixes, ih _ assigned.tail]
    rfl

theorem foldl_eliminate_hidden (assigned : Role.hidden.Assigned operations bits)
    (a : Bit → Bool) :
    bits.foldl ((pointwise noTolerance).eliminate operations) f a =
      ∑ value ∈ Finset.range (2 ^ bits.length), f (Bit.write bits value a) := by
  induction bits generalizing f with
  | nil => exact (Finset.sum_range_one fun value => f (Bit.write [] value a)).symm
  | cons bit bits ih =>
    have sums : (pointwise noTolerance).eliminate operations f bit =
        fun a => f (Function.update a bit false) + f (Function.update a bit true) := by
      rw [eliminate, assigned 0 bit rfl]
      rfl
    have low (i : Nat) : Bit.write (bit :: bits) (2 * i) a =
        Function.update (Bit.write bits i a) bit false := by
      rw [Bit.write, Nat.mul_div_cancel_left i (by omega), Nat.testBit_zero,
        decide_eq_false (by omega)]
    have high (i : Nat) : Bit.write (bit :: bits) (2 * i + 1) a =
        Function.update (Bit.write bits i a) bit true := by
      rw [Bit.write, Nat.testBit_zero, decide_eq_true (by omega),
        show (2 * i + 1) / 2 = i by omega]
    rw [List.foldl_cons, sums, ih _ assigned.tail, List.length_cons, Nat.pow_succ',
      sum_range_double]
    simp only [low, high]

theorem foldl_eliminate_code {e : Encoding} (sound : e.Sound) {name : String} {b : Block}
    (found : e.block? name = some b) {role : Role} (assigned : role.Assigned operations b.bits)
    (v : Choice) :
    b.bits.foldl ((pointwise noTolerance).eliminate operations) f (e.code v) =
      role.eliminate (2 ^ b.bits.length) name (fun u => f (e.code u)) v := by
  cases role with
  | queried => rw [foldl_eliminate_queried f assigned, Role.eliminate]
  | observed value =>
    rw [foldl_eliminate_observed f assigned, Role.eliminate, Encoding.code_update sound found]
  | hidden =>
    rw [foldl_eliminate_hidden f assigned, Role.eliminate]
    simp only [Encoding.code_update sound found]

theorem foldl_eliminate_blocks {e : Encoding} (sound : e.Sound) {names : List String}
    (nodup : names.Nodup) (known : ∀ name ∈ names, ∃ b, e.block? name = some b) (v : Choice) :
    (names.flatMap e.bitsOf).foldl ((pointwise noTolerance).eliminate ∅) f (e.code v) =
      sumOver e.codes names (fun u => f (e.code u)) v := by
  induction names generalizing f with
  | nil => rfl
  | cons name names ih =>
    obtain ⟨new, nodup⟩ := List.nodup_cons.mp nodup
    obtain ⟨b, found⟩ := known name (.head names)
    have hidden : Role.hidden.Assigned ∅ b.bits := fun place bit _ => Std.ExtTreeMap.getD_empty
    have block (u : Choice) :
        (e.bitsOf name).foldl ((pointwise noTolerance).eliminate ∅) f (e.code u) =
          ∑ value ∈ Finset.range (e.codes name), f (e.code (Function.update u name value)) := by
      rw [Encoding.codes, Encoding.bitsOf_of_block? found]
      exact foldl_eliminate_code f sound found hidden u
    rw [List.flatMap_cons, List.foldl_append,
      ih _ nodup fun other mem => known other (.tail name mem)]
    simp only [block]
    exact sumOver_cons_of_notMem (f := fun u => f (e.code u)) new

end Valuation

/-! ### The sweep -/

namespace Factor

open BayesDiagram.Valuation (pointwise)

def total (live : List (Live Rat)) (a : Bit → Bool) : Rat :=
  (live.map (·.2.value a)).prod

theorem total_perm {live live' : List (Live Rat)} (perm : live.Perm live') (a : Bit → Bool) :
    total live a = total live' a :=
  (perm.map _).prod_eq

theorem total_append (live live' : List (Live Rat)) (a : Bit → Bool) :
    total (live ++ live') a = total live a * total live' a := by
  rw [total, List.map_append, List.prod_append]
  rfl

theorem total_singleton (pair : Live Rat) (a : Bit → Bool) : total [pair] a = pair.2.value a :=
  List.prod_singleton

variable {e : Encoding} (sound : e.Sound) {query relevant : NameSet} {done : List String}
  {live live' : List (Live Rat)} {role : String → Role}

include sound

theorem total_others (tidy : Scoped e.bitsOf relevant query done live) {name : String} {b : Block}
    (found : e.block? name = some b) (v : Choice) (value : Nat) :
    total (others name live) (e.code (Function.update v name value)) =
      total (others name live) (e.code v) := by
  refine congrArg List.prod (List.map_congr_left fun pair mem => ?_)
  obtain ⟨inLive, absent⟩ := mem_others.mp mem
  refine Diagram.value_congr fun bit inBits => ?_
  obtain ⟨other, inScope, owned⟩ := mem_scopeBits.mp (tidy.within pair inLive inBits)
  rw [Encoding.code_update sound found]
  refine Bit.write_of_notMem fun inBlock => absent ?_
  rw [← Encoding.bitsOf_of_block? found] at inBlock
  exact sound.owner_unique owned inBlock ▸ inScope

theorem total_step (tidy : Scoped e.bitsOf relevant query done live) {name : String}
    (fresh : name ∉ done) {b : Block} (found : e.block? name = some b)
    (assigned : name ∈ relevant → (role name).Assigned operations (e.bitsOf name))
    (step : SweepStep (pointwise noTolerance) operations query name (e.bitsOf name) live live')
    (v : Choice) :
    total live' (e.code v) = if name ∈ relevant then
        (role name).eliminate (e.codes name) name (fun u => total live (e.code u)) v
      else total live (e.code v) := by
  cases step with
  | unmentioned empty =>
    rw [if_neg fun isRelevant => tidy.bucket_ne_nil.mpr ⟨isRelevant, .inr fresh⟩ empty]
  | @eliminated factor d mentioned scope meaning left =>
    have isRelevant := (tidy.bucket_ne_nil.mp mentioned).1
    have assigned := assigned isRelevant
    have apart (u : Choice) : total live (e.code u) =
        total (others name live) (e.code u) * total (bucket name live) (e.code u) := by
      rw [← total_append]
      exact total_perm ((bucket_append_others name live).symm.trans List.perm_append_comm) _
    have bucketProduct : (pointwise noTolerance).productOf
          ((bucket name live).map ((pointwise noTolerance).of ·.2)) =
        total (bucket name live) := by
      funext a
      rw [Valuation.productOf_pointwise, List.map_map]
      rfl
    have new : d.value (e.code v) = (role name).eliminate (e.codes name) name
        (fun u => total (bucket name live) (e.code u)) v := by
      have means := congrFun meaning (e.code v)
      rw [bucketProduct, Encoding.bitsOf_of_block? found] at means
      rw [Encoding.bitsOf_of_block? found] at assigned
      rw [Encoding.codes, Encoding.bitsOf_of_block? found]
      exact means.trans (Valuation.foldl_eliminate_code _ sound found assigned v)
    rw [if_pos isRelevant, total_append]
    simp only [apart]
    rw [Role.eliminate_mul_left (role name) (total_others sound tidy found v), ← new,
      total_singleton]

/-- A sweep eliminates the relevant variables in turn. -/
theorem total_sweep (tidy : Scoped e.bitsOf relevant query done live) {names : List String}
    (nodup : names.Nodup) (fresh : ∀ name ∈ names, name ∉ done)
    (known : ∀ name ∈ names, ∃ b, e.block? name = some b)
    (handles : ∀ name ∈ relevant, Handles operations query e.bitsOf name)
    (assigned : ∀ name ∈ relevant, (role name).Assigned operations (e.bitsOf name))
    (sweeps : Sweeps (pointwise noTolerance) operations query
      (names.map fun name => (name, e.bitsOf name)) live live') :
    (fun v => total live' (e.code v)) =
      (names.filter (relevant.contains ·)).foldl
        (fun f name => (role name).eliminate (e.codes name) name f)
        (fun v => total live (e.code v)) := by
  induction names generalizing live done with
  | nil =>
    cases sweeps
    rfl
  | cons name names ih =>
    cases sweeps with
    | next step later =>
      obtain ⟨new, nodup⟩ := List.nodup_cons.mp nodup
      obtain ⟨b, found⟩ := known name (.head names)
      have stepped := funext (total_step sound tidy (fresh name (.head names)) found
        (assigned name) step)
      have rest := ih (tidy.step (handles name) step) nodup (fun other mem there => by
          rcases List.mem_cons.mp there with rfl | before
          · exact new mem
          · exact fresh other (.tail name mem) before)
        (fun other mem => known other (.tail name mem)) later
      rw [rest, List.filter_cons, stepped]
      by_cases isRelevant : name ∈ relevant
      · simp only [isRelevant, if_true, Std.ExtTreeSet.contains_iff_mem.mpr isRelevant,
          List.foldl_cons]
      · simp only [isRelevant, if_false, mt Std.ExtTreeSet.contains_iff_mem.mp isRelevant,
          Bool.false_eq_true]

end Factor

/-! ### Elimination as a sum -/

namespace Evidence

/-- The observed values, and those of a choice elsewhere. -/
def observe (evidence : Evidence) (v : Choice) : Choice :=
  fun name => (evidence[name]?).getD (v name)

theorem observe_of_none {evidence : Evidence} {name : String} (free : evidence[name]? = none)
    (v : Choice) : evidence.observe v name = v name := by
  rw [observe, free, Option.getD_none]

def observeAt (evidence : Evidence) (names : List String) (v : Choice) : Choice :=
  fun name => if name ∈ names then evidence.observe v name else v name

theorem observeAt_cons (evidence : Evidence) (name : String) (names : List String) (v : Choice) :
    evidence.observeAt (name :: names) v =
      Function.update (evidence.observeAt names v) name (evidence.observe v name) := by
  funext other
  by_cases same : other = name
  · subst same
    rw [Function.update_self, observeAt, if_pos (.head names)]
  · rw [Function.update_of_ne same, observeAt, observeAt]
    simp only [List.mem_cons, same, false_or]

theorem observeAt_cons_of_none {evidence : Evidence} {name : String} {names : List String}
    (free : evidence[name]? = none) (new : name ∉ names) (v : Choice) :
    evidence.observeAt (name :: names) v = evidence.observeAt names v := by
  rw [observeAt_cons, observe_of_none free, Function.update_eq_self_iff, observeAt, if_neg new]

/-- The elimination of some variables is the sum over the hidden ones, the observed ones fixed. -/
theorem foldl_eliminate {query : NameSet} {evidence : Evidence}
    (disjoint : ∀ name ∈ query, evidence[name]? = none) (size : String → Nat) {names : List String}
    (nodup : names.Nodup) (f : Choice → Rat) (v : Choice) :
    names.foldl (fun f name => (role query evidence name).eliminate (size name) name f) f v =
      sumOver size (names.filter (hides query evidence)) f (evidence.observeAt names v) := by
  induction names generalizing f with
  | nil => rfl
  | cons name names ih =>
    obtain ⟨new, nodup⟩ := List.nodup_cons.mp nodup
    have outside : name ∉ names.filter (hides query evidence) := fun mem =>
      new (List.mem_of_mem_filter mem)
    rw [List.foldl_cons, ih nodup]
    by_cases queried : name ∈ query
    · have isQueried := Std.ExtTreeSet.contains_iff_mem.mpr queried
      have plays : role query evidence name = .queried := role_eq_queried.mpr queried
      rw [List.filter_cons_of_neg (by simp [hides, isQueried]),
        observeAt_cons_of_none (disjoint name queried) new, plays]
      rfl
    · have notQueried := Bool.eq_false_iff.mpr (mt Std.ExtTreeSet.contains_iff_mem.mp queried)
      cases seen : evidence[name]? with
      | some value =>
        have plays := role_of_observed queried seen
        have value_eq : evidence.observe v name = value := by rw [observe, seen, Option.getD_some]
        rw [List.filter_cons_of_neg (by simp [hides, seen]), observeAt_cons, value_eq, plays]
        exact sumOver_update outside value
      | none =>
        have hidden : hides query evidence name = true := by simp [hides, notQueried, seen]
        rw [List.filter_cons_of_pos hidden, observeAt_cons_of_none seen new, role_of_hides hidden]
        exact sumOver_cons_of_notMem outside

end Evidence

end BayesDiagram
