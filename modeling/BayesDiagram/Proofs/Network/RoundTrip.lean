import BayesDiagram.Proofs.Inference.Roles
import BayesDiagram.Proofs.Network.Numbering
import Mathlib.Order.Bounds.Basic

/-! Codes of values. A variable takes the least number of bits that tell its values apart; every
identifier that was handed out is one place of one variable; and a value is read back from its code,
whatever the other bits are. -/
namespace BayesDiagram

/-! ### Binary digits -/

theorem bitsFor_le_iff {n k : Nat} : bitsFor n ≤ k ↔ n ≤ 2 ^ k := by
  unfold bitsFor
  split
  · next small =>
    have := Nat.one_le_two_pow (n := k)
    omega
  · next large =>
    have positive : n - 1 ≠ 0 := by omega
    rw [Nat.add_one_le_iff, Nat.log2_lt positive]
    omega

theorem isLeast_bitsFor (n : Nat) : IsLeast {k | n ≤ 2 ^ k} (bitsFor n) :=
  ⟨le_two_pow_bitsFor n, fun _ enough => bitsFor_le_iff.mpr enough⟩

/-! ### Bits read off an assignment -/

namespace Assignment

variable {a : Assignment} {bits : List Bit} {digits : List Bool}

def total (assignment : Assignment) (bit : Bit) : Bool :=
  (assignment bit).getD false

theorem mapM_eq_some_iff :
    bits.mapM a = some digits ↔ List.Forall₂ (fun bit digit => a bit = some digit) bits digits := by
  induction bits generalizing digits with
  | nil => simp [eq_comm]
  | cons bit bits ih =>
    simp only [List.mapM_cons, Option.bind_eq_bind, Option.bind_eq_some_iff, ih,
      List.forall₂_cons_left_iff, Option.pure_def, Option.some.injEq]
    constructor
    · rintro ⟨digit, here, rest, follows, same⟩
      exact ⟨digit, rest, here, follows, same.symm⟩
    · rintro ⟨digit, rest, here, follows, same⟩
      exact ⟨digit, here, rest, follows, same.symm⟩

theorem mapM_eq_some (assigned : ∀ bit ∈ bits, ∃ value, a bit = some value) :
    bits.mapM a = some (bits.map a.total) := by
  rw [mapM_eq_some_iff, List.forall₂_map_right_iff, List.forall₂_same]
  intro bit mem
  obtain ⟨value, here⟩ := assigned bit mem
  rw [total, here, Option.getD_some]

end Assignment

namespace Encoding

theorem ofDigits_lt (digits : List Bool) : ofDigits digits < 2 ^ digits.length := by
  induction digits with
  | nil => exact Nat.one_pos
  | cons digit digits ih =>
    have step : ofDigits (digit :: digits) = digit.toNat + 2 * ofDigits digits := rfl
    have bound := digit.toNat_lt
    rw [step, List.length_cons, Nat.pow_succ]
    omega

theorem testBit_ofDigits {digits : List Bool} {place : Nat} {digit : Bool}
    (here : digits[place]? = some digit) : (ofDigits digits).testBit place = digit := by
  induction digits generalizing place with
  | nil => cases here
  | cons first digits ih =>
    have step : ofDigits (first :: digits) = first.toNat + 2 * ofDigits digits := rfl
    have bound := first.toNat_lt
    cases place with
    | zero =>
      cases here
      rw [step, Nat.testBit_zero, Nat.add_mul_mod_self_left]
      cases digit
      · rfl
      · rfl
    | succ place =>
      rw [Nat.testBit_succ, step, Nat.add_mul_div_left _ _ Nat.two_pos, Nat.div_eq_of_lt bound,
        Nat.zero_add]
      exact ih here

/-! ### Codes -/

variable {σ : Type} {e : Encoding} {b : Block} {name : String} {a : Assignment} {i : Nat}

def Agrees (a : Assignment) (code : List (Bit × Bool)) : Prop :=
  ∀ bit value, (bit, value) ∈ code → a bit = some value

theorem decode_of_block? (found : e.block? name = some b) :
    (e.decode name a : Except (Error σ) _) = .ok ((b.bits.mapM a).map ofDigits) := by
  rw [decode, bits_eq_ok.mpr ⟨b, found, rfl⟩]
  rfl

theorem agrees_iff : Agrees a (b.bits.zipIdx.map fun (bit, place) => (bit, i.testBit place)) ↔
    ∀ place bit, b.bits[place]? = some bit → a bit = some (i.testBit place) := by
  simp only [Agrees, List.mem_map, Prod.exists, List.mk_mem_zipIdx_iff_getElem?, Prod.mk.injEq]
  constructor
  · intro agrees place bit here
    exact agrees bit _ ⟨bit, place, here, rfl, rfl⟩
  · rintro agrees _ _ ⟨bit, place, here, rfl, rfl⟩
    exact agrees place bit here

theorem mapM_of_agrees
    (agrees : ∀ place bit, b.bits[place]? = some bit → a bit = some (i.testBit place)) :
    b.bits.mapM a = some ((List.range b.bits.length).map i.testBit) := by
  rw [Assignment.mapM_eq_some_iff, List.forall₂_iff_get]
  refine ⟨by rw [List.length_map, List.length_range], fun place here _ => ?_⟩
  rw [List.get_eq_getElem, agrees place _ (List.getElem?_eq_getElem here)]
  simp

theorem decode_of_agrees (sound : e.Sound) {code : List (Bit × Bool)}
    (encoded : (e.encode name i : Except (Error σ) _) = .ok code) (agrees : Agrees a code) :
    (e.decode name a : Except (Error σ) _) = .ok (some i) := by
  obtain ⟨b, found, below, rfl⟩ := encode_eq_ok.mp encoded
  rw [decode_of_block? found, mapM_of_agrees (agrees_iff.mp agrees), Option.map_some,
    ofDigits_testBit (Nat.lt_of_lt_of_le below (sound.arity_le found))]

theorem decode_cases (found : e.block? name = some b) (a : Assignment) :
    ((∃ bit ∈ b.bits, a bit = none) ∧ (e.decode name a : Except (Error σ) _) = .ok none) ∨
      (∀ bit ∈ b.bits, a bit ≠ none) ∧
      ∃ i, (e.decode name a : Except (Error σ) _) = .ok (some i) ∧ i < 2 ^ b.bits.length ∧
        ∀ place bit, b.bits[place]? = some bit → a bit = some (i.testBit place) := by
  rw [decode_of_block? found]
  cases read : b.bits.mapM a with
  | none =>
    refine .inl ⟨?_, rfl⟩
    by_contra closed
    have assigned (bit : Bit) (mem : bit ∈ b.bits) : ∃ value, a bit = some value :=
      Option.ne_none_iff_exists'.mp fun unassigned => closed ⟨bit, mem, unassigned⟩
    rw [Assignment.mapM_eq_some assigned] at read
    cases read
  | some digits =>
    have spells := Assignment.mapM_eq_some_iff.mp read
    refine .inr ⟨fun bit mem => ?_, ofDigits digits, rfl, ?_, fun place bit here => ?_⟩
    · obtain ⟨digit, -, same⟩ := exists_of_forall₂ spells mem
      rw [same]
      exact Option.some_ne_none digit
    · rw [spells.length_eq]
      exact ofDigits_lt digits
    · obtain ⟨bound, rfl⟩ := List.getElem?_eq_some_iff.mp here
      have inDigits : place < digits.length := spells.length_eq ▸ bound
      rw [testBit_ofDigits (List.getElem?_eq_getElem inDigits)]
      exact spells.get bound inDigits

theorem decode_eq_none_iff (found : e.block? name = some b) :
    (e.decode name a : Except (Error σ) _) = .ok none ↔ ∃ bit ∈ b.bits, a bit = none := by
  rcases decode_cases (σ := σ) found a with ⟨unassigned, read⟩ | ⟨assigned, i, read, -⟩
  · exact iff_of_true read unassigned
  · refine iff_of_false (fun none => ?_) fun ⟨bit, mem, unassigned⟩ => assigned bit mem unassigned
    cases read.symm.trans none

theorem exists_encode_iff (found : e.block? name = some b) :
    (∃ code, (e.encode name i : Except (Error σ) _) = .ok code) ↔ i < b.arity := by
  constructor
  · rintro ⟨code, encoded⟩
    obtain ⟨b', found', below, -⟩ := encode_eq_ok.mp encoded
    cases found.symm.trans found'
    exact below
  · intro below
    exact ⟨_, encode_eq_ok.mpr ⟨b, found, below, rfl⟩⟩

theorem bits_of_encode {code : List (Bit × Bool)}
    (encoded : (e.encode name i : Except (Error σ) _) = .ok code) :
    (e.bits name : Except (Error σ) _) = .ok (code.map Prod.fst) := by
  obtain ⟨b, found, -, rfl⟩ := encode_eq_ok.mp encoded
  refine bits_eq_ok.mpr ⟨b, found, ?_⟩
  rw [List.map_map]
  exact (List.zipIdx_map_fst 0 b.bits).symm

theorem exists_decode (found : e.block? name = some b) (assigned : ∀ bit ∈ b.bits, a bit ≠ none) :
    ∃ i, (e.decode name a : Except (Error σ) _) = .ok (some i) ∧
      (i < b.arity → ∃ code, (e.encode name i : Except (Error σ) _) = .ok code ∧
        Agrees a code) := by
  rcases decode_cases (σ := σ) found a with ⟨⟨bit, mem, unassigned⟩, -⟩ | ⟨-, i, read, -, spells⟩
  · exact absurd unassigned (assigned bit mem)
  · refine ⟨i, read, fun below => ?_⟩
    exact ⟨_, encode_eq_ok.mpr ⟨b, found, below, rfl⟩, agrees_iff.mpr spells⟩

/-! ### Round trips -/

/-- An encoding of some variables that hands out the identifiers from one on and spells the values
of the variables. -/
structure Bijective (σ : Type) (e : Encoding) (arities : List (String × Nat)) : Prop where
  identifiers :
    e.ownedBits.map OwnedBit.bit = (List.range' 1 (bitCount arities)).map Bit.mk
  block : ∀ before name arity after, arities = before ++ (name, arity) :: after →
    (e.bits name : Except (Error σ) _) =
      .ok ((List.range' (1 + bitCount before) (bitsFor arity)).map Bit.mk)
  disjoint : ∀ name other bits bits', name ≠ other →
    (e.bits name : Except (Error σ) _) = .ok bits →
    (e.bits other : Except (Error σ) _) = .ok bits' → bits.Disjoint bits'
  handedOut : ∀ bit, (∃ o, e.ownedBit? bit = some o) ↔ 1 ≤ bit.id ∧ bit.id ≤ bitCount arities
  owner : ∀ bit o, e.ownedBit? bit = some o ↔ o.bit = bit ∧
    ∃ bits, (e.bits o.owner : Except (Error σ) _) = .ok bits ∧ bits[o.place]? = some bit
  encodable : ∀ name arity, (name, arity) ∈ arities → ∀ i,
    (∃ code, (e.encode name i : Except (Error σ) _) = .ok code) ↔ i < arity
  codeBits : ∀ name i code, (e.encode name i : Except (Error σ) _) = .ok code →
    (e.bits name : Except (Error σ) _) = .ok (code.map Prod.fst)
  decode_encode : ∀ name i code a, (e.encode name i : Except (Error σ) _) = .ok code →
    Agrees a code → (e.decode name a : Except (Error σ) _) = .ok (some i)
  decode_open : ∀ name bits a, (e.bits name : Except (Error σ) _) = .ok bits →
    ((e.decode name a : Except (Error σ) _) = .ok none ↔ ∃ bit ∈ bits, a bit = none)
  encode_decode : ∀ name arity, (name, arity) ∈ arities → ∀ bits a,
    (e.bits name : Except (Error σ) _) = .ok bits → (∀ bit ∈ bits, a bit ≠ none) →
    ∃ i, (e.decode name a : Except (Error σ) _) = .ok (some i) ∧
      (i < arity → ∃ code, (e.encode name i : Except (Error σ) _) = .ok code ∧ Agrees a code)
  expand : ∀ names, names.Perm (arities.map Prod.fst) →
    ∃ bits, (e.expand names : Except (Error σ) _) = .ok bits ∧
      bits.Perm ((List.range' 1 (bitCount arities)).map Bit.mk)

theorem Encodes.expand_perm {arities : List (String × Nat)} (encodes : e.Encodes arities)
    {names : List String} (perm : names.Perm (arities.map Prod.fst)) :
    ∃ bits, (e.expand names : Except (Error σ) _) = .ok bits ∧
      bits.Perm ((List.range' 1 e.size).map Bit.mk) := by
  have known (name : String) (mem : name ∈ names) : ∃ b, e.block? name = some b := by
    obtain ⟨⟨name, arity⟩, there, rfl⟩ := List.mem_map.mp (perm.mem_iff.mp mem)
    exact (encodes.exists_block? there).imp fun _ => And.left
  exact ⟨_, expand_eq known, encodes.flatMap_bitsOf ▸ perm.flatMap_right _⟩

/-- Variables with different names, with any numbers of values, are encoded bijectively as long as
there are identifiers for their bits; and no variable takes more bits than it needs. -/
theorem allocateAll_bijective (σ : Type) (arities : List (String × Nat))
    (nodup : (arities.map Prod.fst).Nodup) (room : bitCount arities < Bit.maxId) :
    (∀ n, IsLeast {k | n ≤ 2 ^ k} (bitsFor n)) ∧
      ∃ e, allocateAll arities = .ok e ∧ e.Bijective σ arities := by
  obtain ⟨e, run, encodes⟩ := exists_allocateAll nodup room
  have sound : e.Sound := ⟨arities, encodes⟩
  have size := encodes.size_eq
  refine ⟨isLeast_bitsFor, e, run, ?_⟩
  exact {
    identifiers := encodes.map_bit_ownedBits
    block := fun before name arity after split =>
      bits_eq_ok.mpr ⟨_, encodes.block?_eq_some.mpr
        ⟨_, split ▸ mem_slots 1 before after, rfl, rfl⟩, rfl⟩
    disjoint := fun name other bits bits' differ read read' => by
      rw [eq_bitsOf read, eq_bitsOf read']
      exact fun _ mem mem' => differ (sound.owner_unique mem mem')
    handedOut := fun bit => size ▸ encodes.exists_ownedBit?_iff
    owner := fun bit o => by
      simp only [sound.ownedBit?_iff, bits_eq_ok, exists_exists_and_eq_and]
    encodable := fun name arity mem i => by
      obtain ⟨b, found, rfl⟩ := encodes.exists_block? mem
      exact exists_encode_iff found
    codeBits := fun name i code encoded => bits_of_encode encoded
    decode_encode := fun name i code a encoded agrees => decode_of_agrees sound encoded agrees
    decode_open := fun name bits a read => by
      obtain ⟨b, found, rfl⟩ := bits_eq_ok.mp read
      exact decode_eq_none_iff found
    encode_decode := fun name arity mem bits a read assigned => by
      obtain ⟨b, found, rfl⟩ := encodes.exists_block? mem
      obtain ⟨b', found', rfl⟩ := bits_eq_ok.mp read
      cases found.symm.trans found'
      exact exists_decode found assigned
    expand := fun names perm => size ▸ encodes.expand_perm perm }

theorem allocateAll_bijective_three :
    ([("A", 1), ("B", 5), ("C", 2)].map Prod.fst).Nodup ∧
    bitCount [("A", 1), ("B", 5), ("C", 2)] < Bit.maxId ∧
    (∀ n, IsLeast {k | n ≤ 2 ^ k} (bitsFor n)) ∧
    ∃ e, allocateAll [("A", 1), ("B", 5), ("C", 2)] = .ok e ∧
      e.Bijective Rat [("A", 1), ("B", 5), ("C", 2)] := by
  have nodup : ([("A", 1), ("B", 5), ("C", 2)].map Prod.fst).Nodup := by decide
  have room : bitCount [("A", 1), ("B", 5), ("C", 2)] < Bit.maxId := by decide
  exact ⟨nodup, room, allocateAll_bijective Rat _ nodup room⟩

end Encoding

end BayesDiagram
