import Chainlog.Merkle
import Chainlog.Reference

/-!
# The Merkle recursion in 64-bit arithmetic

`split_point`, `mth` and `path` as the machine runs them: the shift drops the
bits that leave the word, a slice out of bounds panics, and a loop may fail to
end.  Up to `2 ^ 63` leaves none of this shows: the loop finds the split of
RFC 6962, and the recursions are those on natural numbers.
-/

namespace Chainlog

namespace Merkle

/-- The split of RFC 6962 section 2.1: a power of two below `n` and not below
its half. -/
structure Rfc6962Split (n k : ℕ) : Prop where
  power : ∃ e, k = 2 ^ e
  lt : k < n
  le : n ≤ 2 * k

theorem Rfc6962Split.unique {n j k : ℕ} (hj : Rfc6962Split n j)
    (hk : Rfc6962Split n k) : j = k := by
  obtain ⟨a, rfl⟩ := hj.power
  obtain ⟨b, rfl⟩ := hk.power
  have hab : 2 ^ a < 2 ^ (b + 1) := by
    calc
      2 ^ a < n := hj.lt
      _ ≤ 2 * 2 ^ b := hk.le
      _ = 2 ^ (b + 1) := by ring
  have hba : 2 ^ b < 2 ^ (a + 1) := by
    calc
      2 ^ b < n := hk.lt
      _ ≤ 2 * 2 ^ a := hj.le
      _ = 2 ^ (a + 1) := by ring
  have hle : a < b + 1 := (Nat.pow_lt_pow_iff_right (by omega)).mp hab
  have hge : b < a + 1 := (Nat.pow_lt_pow_iff_right (by omega)).mp hba
  have heq : a = b := by omega
  rw [heq]

theorem splitPoint_rfc6962 {n : ℕ} (hn : 2 ≤ n) :
    Rfc6962Split n (splitPoint n) := by
  obtain ⟨e, hsplit, hlt, hle⟩ := splitPoint_spec hn
  rw [hsplit]
  exact ⟨⟨e, rfl⟩, hlt, by rwa [pow_succ, mul_comm] at hle⟩

namespace Usize

/-- What keeps a run from returning. -/
inductive Fault where
  | unfinished
  | outOfBounds
  deriving DecidableEq, Repr

/-- `while k << 1 < n { k <<= 1 }`, for fewer than `fuel` turns. -/
def doubling : ℕ → UInt64 → UInt64 → Except Fault UInt64
  | 0, _, _ => .error .unfinished
  | fuel + 1, n, k =>
      if k <<< 1 < n then doubling fuel n (k <<< 1) else .ok k

def splitPoint (fuel : ℕ) (n : UInt64) : Except Fault UInt64 :=
  doubling fuel n 1

/-- `leaves.len()`. -/
def len (leaves : List Bytes) : UInt64 := UInt64.ofNat leaves.length

/-- `&leaves[..k]`. -/
def sliceTo (leaves : List Bytes) (k : UInt64) : Except Fault (List Bytes) :=
  if k ≤ len leaves then .ok (leaves.take k.toNat) else .error .outOfBounds

/-- `&leaves[k..]`. -/
def sliceFrom (leaves : List Bytes) (k : UInt64) : Except Fault (List Bytes) :=
  if k ≤ len leaves then .ok (leaves.drop k.toNat) else .error .outOfBounds

/-- A recursive call: the slice of the caller, the slice that it passes on
and, for a call of `path`, the index. -/
structure Call where
  caller : List Bytes
  slice : List Bytes
  index : Option UInt64
  deriving DecidableEq, Repr

/-- The call is on a shorter slice that is not empty. -/
def Call.Shrinks (call : Call) : Prop :=
  call.slice ≠ [] ∧ call.slice.length < call.caller.length

/-- The index is one of the slice. -/
def Call.Inside (call : Call) : Prop :=
  ∀ m ∈ call.index, m.toNat < call.slice.length

variable (crates : Crates)

/-- The tree hash and the calls that were made for it. -/
def mth : ℕ → List Bytes → Except Fault (Digest × List Call)
  | 0, _ => .error .unfinished
  | _ + 1, [] => .ok (crates.blake3 [], [])
  | _ + 1, [leaf] => .ok (leafHash crates leaf, [])
  | fuel + 1, leaves => do
      let k ← splitPoint fuel (len leaves)
      let left ← sliceTo leaves k
      let (leftHash, leftCalls) ← mth fuel left
      let right ← sliceFrom leaves k
      let (rightHash, rightCalls) ← mth fuel right
      return (nodeHash crates leftHash rightHash,
        ⟨leaves, left, none⟩ :: leftCalls ++ ⟨leaves, right, none⟩ :: rightCalls)

/-- The path and the calls that were made for it. -/
def path : ℕ → List Bytes → UInt64 →
    Except Fault (List (Digest × Bool) × List Call)
  | 0, _, _ => .error .unfinished
  | fuel + 1, leaves, m =>
      if len leaves ≤ 1 then .ok ([], [])
      else do
        let k ← splitPoint fuel (len leaves)
        if m < k then
          -- The sibling is on the right.
          let left ← sliceTo leaves k
          let (out, calls) ← path fuel left m
          let right ← sliceFrom leaves k
          let (sibling, siblingCalls) ← mth crates fuel right
          return (out ++ [(sibling, true)],
            ⟨leaves, left, some m⟩ :: calls ++
              ⟨leaves, right, none⟩ :: siblingCalls)
        else
          -- The sibling is on the left.
          let right ← sliceFrom leaves k
          let (out, calls) ← path fuel right (m - k)
          let left ← sliceTo leaves k
          let (sibling, siblingCalls) ← mth crates fuel left
          return (out ++ [(sibling, false)],
            ⟨leaves, right, some (m - k)⟩ :: calls ++
              ⟨leaves, left, none⟩ :: siblingCalls)

/-! ## The loop -/

theorem toNat_shift {k : UInt64} {e : ℕ} (hk : k.toNat = 2 ^ e) (he : e < 63) :
    (k <<< 1).toNat = 2 ^ (e + 1) := by
  have hfits : 2 ^ (e + 1) < 2 ^ 64 :=
    Nat.pow_lt_pow_right (by omega) (by omega)
  have hshift : k.toNat <<< 1 = 2 ^ (e + 1) := by
    rw [hk, Nat.shiftLeft_eq, ← pow_add]
  rw [UInt64.toNat_shiftLeft]
  calc
    k.toNat <<< 1 % 2 ^ 64 = 2 ^ (e + 1) % 2 ^ 64 := by rw [hshift]
    _ = 2 ^ (e + 1) := Nat.mod_eq_of_lt hfits

/-- The loop doubles a power of two below `n`; up to `2 ^ 63` no bit is lost,
so that it ends within the width of the word. -/
theorem doubling_spec {fuel e : ℕ} {n k : UInt64} (hk : k.toNat = 2 ^ e)
    (hlt : 2 ^ e < n.toNat) (hn : n.toNat ≤ 2 ^ 63) (hfuel : 64 ≤ fuel + e) :
    ∃ split, doubling fuel n k = .ok split ∧
      Rfc6962Split n.toNat split.toNat := by
  have he : e < 63 := (Nat.pow_lt_pow_iff_right (by omega)).mp (hlt.trans_le hn)
  induction fuel generalizing k e with
  | zero => omega
  | succ fuel ih =>
      have hshift := toNat_shift hk he
      rw [doubling]
      by_cases hnext : k <<< 1 < n
      · have hless : 2 ^ (e + 1) < n.toNat := by
          rw [← hshift]
          exact UInt64.lt_iff_toNat_lt.mp hnext
        have he' : e + 1 < 63 :=
          (Nat.pow_lt_pow_iff_right (by omega)).mp (hless.trans_le hn)
        rw [if_pos hnext]
        exact ih hshift hless (by omega) he'
      · have hstop : n.toNat ≤ 2 ^ (e + 1) := by
          rw [← hshift]
          exact Nat.le_of_not_lt fun h => hnext (UInt64.lt_iff_toNat_lt.mpr h)
        rw [if_neg hnext]
        refine ⟨k, rfl, ⟨e, hk⟩, ?_, ?_⟩
        · rwa [hk]
        · rwa [hk, mul_comm, ← pow_succ]

theorem splitPoint_spec {n : UInt64} (hlow : 2 ≤ n.toNat)
    (hhigh : n.toNat ≤ 2 ^ 63) :
    ∃ k, (∀ fuel, 64 ≤ fuel → splitPoint fuel n = .ok k) ∧
      Rfc6962Split n.toNat k.toNat := by
  have hrun : ∀ fuel, 64 ≤ fuel → ∃ k, splitPoint fuel n = .ok k ∧
      Rfc6962Split n.toNat k.toNat := by
    intro fuel hfuel
    exact doubling_spec (e := 0) rfl (by omega) hhigh (by omega)
  obtain ⟨k, _, hk⟩ := hrun 64 le_rfl
  refine ⟨k, ?_, hk⟩
  intro fuel hfuel
  obtain ⟨k', hfound, hk'⟩ := hrun fuel hfuel
  rw [hfound, UInt64.toNat_inj.mp (hk'.unique hk)]

theorem doubling_unfinished {n : UInt64} (hn : 2 ^ 63 < n.toNat) (fuel : ℕ)
    {k : UInt64} (hk : k = 0 ∨ ∃ e ≤ 63, k.toNat = 2 ^ e) :
    doubling fuel n k = .error .unfinished := by
  induction fuel generalizing k with
  | zero => rfl
  | succ fuel ih =>
      -- Past the top bit the shift gives zero, which the loop never leaves.
      have hnext : k <<< 1 < n ∧
          (k <<< 1 = 0 ∨ ∃ e ≤ 63, (k <<< 1).toNat = 2 ^ e) := by
        have hzero : (0 : UInt64) < n := by
          rw [UInt64.lt_iff_toNat_lt, UInt64.toNat_zero]
          omega
        rcases hk with rfl | ⟨e, he, hk⟩
        · exact ⟨hzero, Or.inl rfl⟩
        · by_cases htop : e < 63
          · have hshift := toNat_shift hk htop
            have hle : 2 ^ (e + 1) ≤ 2 ^ 63 :=
              Nat.pow_le_pow_right (by omega) (by omega)
            refine ⟨?_, Or.inr ⟨e + 1, by omega, hshift⟩⟩
            rw [UInt64.lt_iff_toNat_lt, hshift]
            omega
          · obtain rfl : e = 63 := by omega
            obtain rfl : k = 9223372036854775808 := UInt64.toNat_inj.mp hk
            exact ⟨hzero, Or.inl rfl⟩
      rw [doubling, if_pos hnext.1]
      exact ih hnext.2

/-- The loop ends exactly up to `2 ^ 63`. -/
theorem splitPoint_returns_iff (n : UInt64) :
    (∃ fuel k, splitPoint fuel n = .ok k) ↔ n.toNat ≤ 2 ^ 63 := by
  constructor
  · rintro ⟨fuel, k, hrun⟩
    by_contra hn
    have hloops := doubling_unfinished (n := n) (by omega) fuel (k := 1)
      (Or.inr ⟨0, by omega, rfl⟩)
    rw [splitPoint, hloops] at hrun
    cases hrun
  · intro hn
    by_cases hlow : 2 ≤ n.toNat
    · obtain ⟨k, hrun, _⟩ := splitPoint_spec hlow hn
      exact ⟨64, k, hrun 64 le_rfl⟩
    · have hstop : ¬(1 : UInt64) <<< 1 < n := by
        have htwo : ((1 : UInt64) <<< 1).toNat = 2 := rfl
        rw [UInt64.lt_iff_toNat_lt, htwo]
        omega
      exact ⟨1, 1, by rw [splitPoint, doubling, if_neg hstop]⟩

/-! ## The recursions -/

theorem toNat_len {leaves : List Bytes} (hfits : leaves.length ≤ 2 ^ 63) :
    (len leaves).toNat = leaves.length :=
  UInt64.toNat_ofNat_of_lt' (hfits.trans_lt (by decide))

/-- Where a slice is split, and that both sides can be taken and are shorter
slices with a leaf. -/
structure SplitAt (leaves : List Bytes) (k : UInt64) : Prop where
  position : k.toNat = Merkle.splitPoint leaves.length
  found : ∀ fuel, 64 ≤ fuel → splitPoint fuel (len leaves) = .ok k
  sliceTo : sliceTo leaves k = .ok (leaves.take k.toNat)
  sliceFrom : sliceFrom leaves k = .ok (leaves.drop k.toNat)
  length_take : (leaves.take k.toNat).length = k.toNat
  length_drop : (leaves.drop k.toNat).length = leaves.length - k.toNat
  pos : 0 < k.toNat
  lt : k.toNat < leaves.length

theorem exists_splitAt {leaves : List Bytes} (htwo : 2 ≤ leaves.length)
    (hfits : leaves.length ≤ 2 ^ 63) : ∃ k, SplitAt leaves k := by
  have hlen := toNat_len hfits
  obtain ⟨k, hrun, hsplit⟩ := splitPoint_spec (n := len leaves)
    (by rwa [hlen]) (by rwa [hlen])
  rw [hlen] at hsplit
  have hposition := hsplit.unique (splitPoint_rfc6962 htwo)
  have hwithin : k ≤ len leaves := by
    rw [UInt64.le_iff_toNat_le, hlen]
    exact hsplit.lt.le
  refine ⟨k, hposition, hrun, if_pos hwithin, if_pos hwithin, ?_,
    List.length_drop, ?_, hsplit.lt⟩
  · rw [List.length_take]
    exact min_eq_left hsplit.lt.le
  · rw [hposition]
    exact splitPoint_pos htwo

namespace SplitAt

variable {leaves : List Bytes} {k : UInt64}

theorem shrinks_take (h : SplitAt leaves k) (index : Option UInt64) :
    Call.Shrinks ⟨leaves, leaves.take k.toNat, index⟩ := by
  have hpos : 0 < (leaves.take k.toNat).length := h.length_take.symm ▸ h.pos
  have hless : (leaves.take k.toNat).length < leaves.length :=
    h.length_take.symm ▸ h.lt
  exact ⟨List.ne_nil_of_length_pos hpos, hless⟩

theorem shrinks_drop (h : SplitAt leaves k) (index : Option UInt64) :
    Call.Shrinks ⟨leaves, leaves.drop k.toNat, index⟩ := by
  have hlength := h.length_drop
  have hlow := h.pos
  have hhigh := h.lt
  have hpos : 0 < (leaves.drop k.toNat).length := by omega
  have hless : (leaves.drop k.toNat).length < leaves.length := by omega
  exact ⟨List.ne_nil_of_length_pos hpos, hless⟩

end SplitAt

theorem exists_cons_cons {leaves : List Bytes} (htwo : 2 ≤ leaves.length) :
    ∃ first second rest, leaves = first :: second :: rest := by
  cases leaves with
  | nil => simp at htwo
  | cons first rest =>
      cases rest with
      | nil => simp at htwo
      | cons second rest => exact ⟨first, second, rest, rfl⟩

theorem eq_nil_or_singleton {leaves : List Bytes}
    (htwo : ¬2 ≤ leaves.length) : leaves = [] ∨ ∃ leaf, leaves = [leaf] := by
  cases leaves with
  | nil => exact Or.inl rfl
  | cons leaf rest =>
      cases rest with
      | nil => exact Or.inr ⟨leaf, rfl⟩
      | cons second rest => simp at htwo

/-- One turn of the recursion of `mth`. -/
theorem mth_step {fuel : ℕ} {leaves left right : List Bytes} {k : UInt64}
    {leftHash rightHash : Digest} {leftCalls rightCalls : List Call}
    (htwo : 2 ≤ leaves.length)
    (hsplit : splitPoint fuel (len leaves) = .ok k)
    (hto : sliceTo leaves k = .ok left) (hfrom : sliceFrom leaves k = .ok right)
    (hleft : mth crates fuel left = .ok (leftHash, leftCalls))
    (hright : mth crates fuel right = .ok (rightHash, rightCalls)) :
    mth crates (fuel + 1) leaves =
      .ok (nodeHash crates leftHash rightHash,
        ⟨leaves, left, none⟩ :: leftCalls ++
          ⟨leaves, right, none⟩ :: rightCalls) := by
  obtain ⟨first, second, rest, rfl⟩ := exists_cons_cons htwo
  simp only [mth, hsplit, hto, hfrom, hleft, hright, bind, Except.bind,
    pure, Except.pure]

theorem mth_of_splitAt {leaves : List Bytes} {k : UInt64}
    (htwo : 2 ≤ leaves.length) (h : SplitAt leaves k) :
    Merkle.mth crates leaves =
      nodeHash crates (Merkle.mth crates (leaves.take k.toNat))
        (Merkle.mth crates (leaves.drop k.toNat)) := by
  rw [h.position]
  obtain ⟨first, second, rest, rfl⟩ := exists_cons_cons htwo
  rw [Merkle.mth]

theorem mth_runs {leaves : List Bytes} (hfits : leaves.length ≤ 2 ^ 63) :
    ∃ calls, (∀ fuel, leaves.length + 64 ≤ fuel →
        mth crates fuel leaves = .ok (Merkle.mth crates leaves, calls)) ∧
      ∀ call ∈ calls, call.Shrinks ∧ call.index = none := by
  induction hlength : leaves.length using Nat.strong_induction_on
    generalizing leaves with
  | _ length ih =>
      subst hlength
      by_cases htwo : 2 ≤ leaves.length
      · obtain ⟨k, hk⟩ := exists_splitAt htwo hfits
        have hleft : (leaves.take k.toNat).length < leaves.length :=
          (hk.shrinks_take none).2
        have hright : (leaves.drop k.toNat).length < leaves.length :=
          (hk.shrinks_drop none).2
        obtain ⟨leftCalls, hleftRun, hleftCalls⟩ :=
          ih _ hleft (hleft.le.trans hfits) rfl
        obtain ⟨rightCalls, hrightRun, hrightCalls⟩ :=
          ih _ hright (hright.le.trans hfits) rfl
        refine ⟨⟨leaves, leaves.take k.toNat, none⟩ :: leftCalls ++
          ⟨leaves, leaves.drop k.toNat, none⟩ :: rightCalls, ?_, ?_⟩
        · intro fuel hfuel
          obtain ⟨fuel, rfl⟩ : ∃ below, fuel = below + 1 :=
            ⟨fuel - 1, by omega⟩
          rw [mth_of_splitAt crates htwo hk]
          exact mth_step crates htwo (hk.found fuel (by omega)) hk.sliceTo
            hk.sliceFrom (hleftRun fuel (by omega)) (hrightRun fuel (by omega))
        · simp only [List.mem_append, List.mem_cons]
          rintro call ((rfl | hcall) | (rfl | hcall))
          · exact ⟨hk.shrinks_take none, rfl⟩
          · exact hleftCalls call hcall
          · exact ⟨hk.shrinks_drop none, rfl⟩
          · exact hrightCalls call hcall
      · refine ⟨[], ?_, by simp⟩
        intro fuel hfuel
        obtain ⟨fuel, rfl⟩ : ∃ below, fuel = below + 1 := ⟨fuel - 1, by omega⟩
        rcases eq_nil_or_singleton htwo with rfl | ⟨leaf, rfl⟩
        · rw [mth, Merkle.mth]
        · rw [mth, Merkle.mth]

theorem len_le_one_iff {leaves : List Bytes} (hfits : leaves.length ≤ 2 ^ 63) :
    len leaves ≤ 1 ↔ ¬2 ≤ leaves.length := by
  have hlen := toNat_len hfits
  have hone : (1 : UInt64).toNat = 1 := rfl
  rw [UInt64.le_iff_toNat_le, hlen, hone]
  omega

theorem path_of_splitAt {leaves : List Bytes} {k : UInt64}
    (htwo : 2 ≤ leaves.length) (h : SplitAt leaves k) (m : ℕ) :
    Merkle.path crates leaves m =
      if m < k.toNat then
        Merkle.path crates (leaves.take k.toNat) m ++
          [(Merkle.mth crates (leaves.drop k.toNat), true)]
      else
        Merkle.path crates (leaves.drop k.toNat) (m - k.toNat) ++
          [(Merkle.mth crates (leaves.take k.toNat), false)] := by
  rw [h.position]
  obtain ⟨first, second, rest, rfl⟩ := exists_cons_cons htwo
  rw [Merkle.path]

/-- One turn of the recursion of `path` to the left. -/
theorem path_step_left {fuel : ℕ} {leaves left right : List Bytes}
    {m k : UInt64} {out : List (Digest × Bool)} {sibling : Digest}
    {calls siblingCalls : List Call} (hlen : ¬len leaves ≤ 1)
    (hsplit : splitPoint fuel (len leaves) = .ok k) (hside : m < k)
    (hto : sliceTo leaves k = .ok left) (hfrom : sliceFrom leaves k = .ok right)
    (hpath : path crates fuel left m = .ok (out, calls))
    (hmth : mth crates fuel right = .ok (sibling, siblingCalls)) :
    path crates (fuel + 1) leaves m =
      .ok (out ++ [(sibling, true)], ⟨leaves, left, some m⟩ :: calls ++
        ⟨leaves, right, none⟩ :: siblingCalls) := by
  simp only [path, if_neg hlen, hsplit, if_pos hside, hto, hpath, hfrom, hmth,
    bind, Except.bind, pure, Except.pure]

/-- One turn of the recursion of `path` to the right. -/
theorem path_step_right {fuel : ℕ} {leaves left right : List Bytes}
    {m k : UInt64} {out : List (Digest × Bool)} {sibling : Digest}
    {calls siblingCalls : List Call} (hlen : ¬len leaves ≤ 1)
    (hsplit : splitPoint fuel (len leaves) = .ok k) (hside : ¬m < k)
    (hto : sliceTo leaves k = .ok left) (hfrom : sliceFrom leaves k = .ok right)
    (hpath : path crates fuel right (m - k) = .ok (out, calls))
    (hmth : mth crates fuel left = .ok (sibling, siblingCalls)) :
    path crates (fuel + 1) leaves m =
      .ok (out ++ [(sibling, false)],
        ⟨leaves, right, some (m - k)⟩ :: calls ++
          ⟨leaves, left, none⟩ :: siblingCalls) := by
  simp only [path, if_neg hlen, hsplit, if_neg hside, hto, hpath, hfrom, hmth,
    bind, Except.bind, pure, Except.pure]

theorem inside_of_index_none {call : Call} (h : call.index = none) :
    call.Inside := by
  intro m hm
  rw [h] at hm
  cases hm

/-- What the calls of one turn of `path` inherit: `onward` is the call on the
half with the leaf, `aside` the one for the sibling. -/
theorem turn_calls {inside : Prop} {onward aside : Call}
    {calls siblingCalls : List Call} (honward : onward.Shrinks)
    (hinside : inside → onward.Inside) (haside : aside.Shrinks)
    (hindex : aside.index = none) (hcalls : ∀ call ∈ calls, call.Shrinks)
    (hstays : inside → ∀ call ∈ calls, call.Inside)
    (hsibling : ∀ call ∈ siblingCalls, call.Shrinks ∧ call.index = none) :
    (∀ call ∈ onward :: calls ++ aside :: siblingCalls, call.Shrinks) ∧
      (inside → ∀ call ∈ onward :: calls ++ aside :: siblingCalls,
        call.Inside) := by
  simp only [List.mem_append, List.mem_cons]
  constructor
  · rintro call ((rfl | hcall) | (rfl | hcall))
    · exact honward
    · exact hcalls call hcall
    · exact haside
    · exact (hsibling call hcall).1
  · rintro hin call ((rfl | hcall) | (rfl | hcall))
    · exact hinside hin
    · exact hstays hin call hcall
    · exact inside_of_index_none hindex
    · exact inside_of_index_none (hsibling call hcall).2

theorem path_runs {leaves : List Bytes} (hfits : leaves.length ≤ 2 ^ 63)
    (m : UInt64) :
    ∃ calls, (∀ fuel, leaves.length + 64 ≤ fuel →
        path crates fuel leaves m =
          .ok (Merkle.path crates leaves m.toNat, calls)) ∧
      (∀ call ∈ calls, call.Shrinks) ∧
      (m.toNat < leaves.length → ∀ call ∈ calls, call.Inside) := by
  induction hlength : leaves.length using Nat.strong_induction_on
    generalizing leaves m with
  | _ length ih =>
      subst hlength
      have hlen := len_le_one_iff hfits
      by_cases htwo : 2 ≤ leaves.length
      · obtain ⟨k, hk⟩ := exists_splitAt htwo hfits
        have hleft : (leaves.take k.toNat).length < leaves.length :=
          (hk.shrinks_take none).2
        have hright : (leaves.drop k.toNat).length < leaves.length :=
          (hk.shrinks_drop none).2
        by_cases hside : m < k
        · have hsideNat : m.toNat < k.toNat := UInt64.lt_iff_toNat_lt.mp hside
          obtain ⟨calls, hrun, hcalls, hstays⟩ :=
            ih _ hleft (hleft.le.trans hfits) m rfl
          obtain ⟨siblingCalls, hsiblingRun, hsibling⟩ :=
            mth_runs crates (hright.le.trans hfits)
          have hinside : m.toNat < (leaves.take k.toNat).length :=
            hk.length_take.symm ▸ hsideNat
          refine ⟨⟨leaves, leaves.take k.toNat, some m⟩ :: calls ++
            ⟨leaves, leaves.drop k.toNat, none⟩ :: siblingCalls, ?_,
            turn_calls (hk.shrinks_take _) ?_ (hk.shrinks_drop _) rfl hcalls
              (fun _ => hstays hinside) hsibling⟩
          · intro fuel hfuel
            obtain ⟨fuel, rfl⟩ : ∃ below, fuel = below + 1 :=
              ⟨fuel - 1, by omega⟩
            rw [path_of_splitAt crates htwo hk, if_pos hsideNat]
            exact path_step_left crates (by simp [hlen, htwo])
              (hk.found fuel (by omega)) hside hk.sliceTo hk.sliceFrom
              (hrun fuel (by omega)) (hsiblingRun fuel (by omega))
          · rintro _ index hindex
            obtain rfl := Option.some.inj hindex
            exact hinside
        · have hsideNat : ¬m.toNat < k.toNat := fun h =>
            hside (UInt64.lt_iff_toNat_lt.mpr h)
          have hsub : (m - k).toNat = m.toNat - k.toNat :=
            UInt64.toNat_sub_of_le _ _
              (UInt64.le_iff_toNat_le.mpr (Nat.le_of_not_lt hsideNat))
          obtain ⟨calls, hrun, hcalls, hstays⟩ :=
            ih _ hright (hright.le.trans hfits) (m - k) rfl
          obtain ⟨siblingCalls, hsiblingRun, hsibling⟩ :=
            mth_runs crates (hleft.le.trans hfits)
          have hinside : m.toNat < leaves.length →
              (m - k).toNat < (leaves.drop k.toNat).length := by
            intro hm
            rw [hsub, hk.length_drop]
            omega
          refine ⟨⟨leaves, leaves.drop k.toNat, some (m - k)⟩ :: calls ++
            ⟨leaves, leaves.take k.toNat, none⟩ :: siblingCalls, ?_,
            turn_calls (hk.shrinks_drop _) ?_ (hk.shrinks_take _) rfl hcalls
              (fun hm => hstays (hinside hm)) hsibling⟩
          · intro fuel hfuel
            obtain ⟨fuel, rfl⟩ : ∃ below, fuel = below + 1 :=
              ⟨fuel - 1, by omega⟩
            rw [path_of_splitAt crates htwo hk, if_neg hsideNat, ← hsub]
            exact path_step_right crates (by simp [hlen, htwo])
              (hk.found fuel (by omega)) hside hk.sliceTo hk.sliceFrom
              (hrun fuel (by omega)) (hsiblingRun fuel (by omega))
          · rintro hm index hindex
            obtain rfl := Option.some.inj hindex
            exact hinside hm
      · refine ⟨[], ?_, by simp, by simp⟩
        intro fuel hfuel
        obtain ⟨fuel, rfl⟩ : ∃ below, fuel = below + 1 := ⟨fuel - 1, by omega⟩
        rw [path, if_pos (hlen.mpr htwo)]
        rcases eq_nil_or_singleton htwo with rfl | ⟨leaf, rfl⟩
        · rw [Merkle.path]
        · rw [Merkle.path]

/-- The loop finds the split of RFC 6962, and the recursions over it return
what they do on natural numbers, by calls on shorter slices that are not
empty; an index of the slice stays one of the slice. -/
theorem recursion_splits :
    (∀ n : UInt64, 2 ≤ n.toNat → n.toNat ≤ 2 ^ 63 →
      ∃ k, (∀ fuel, 64 ≤ fuel → splitPoint fuel n = .ok k) ∧
        Rfc6962Split n.toNat k.toNat ∧
        ∀ j, Rfc6962Split n.toNat j → j = k.toNat) ∧
    ∀ leaves : List Bytes, leaves.length ≤ 2 ^ 63 →
      (∃ calls, (∀ fuel, leaves.length + 64 ≤ fuel →
          mth crates fuel leaves = .ok (Merkle.mth crates leaves, calls)) ∧
        ∀ call ∈ calls, call.Shrinks) ∧
      ∀ m : UInt64, ∃ calls, (∀ fuel, leaves.length + 64 ≤ fuel →
          path crates fuel leaves m =
            .ok (Merkle.path crates leaves m.toNat, calls)) ∧
        (∀ call ∈ calls, call.Shrinks) ∧
        (m.toNat < leaves.length → ∀ call ∈ calls, call.Inside) := by
  constructor
  · intro n hlow hhigh
    obtain ⟨k, hrun, hsplit⟩ := splitPoint_spec hlow hhigh
    exact ⟨k, hrun, hsplit, fun j hj => hj.unique hsplit⟩
  · intro leaves hfits
    obtain ⟨calls, hrun, hcalls⟩ := mth_runs crates hfits
    exact ⟨⟨calls, hrun, fun call hcall => (hcalls call hcall).1⟩,
      path_runs crates hfits⟩

theorem recursion_splits_three :
    (∃ k, splitPoint 64 3 = .ok k ∧ Rfc6962Split 3 k.toNat) ∧
      ∃ calls, path referenceCrates 67 [[1], [2], [3]] 2 =
          .ok (Merkle.path referenceCrates [[1], [2], [3]] 2, calls) ∧
        ∀ call ∈ calls, call.Shrinks ∧ call.Inside := by
  obtain ⟨hloop, hrecursion⟩ := recursion_splits referenceCrates
  obtain ⟨k, hrun, hsplit, _⟩ := hloop 3 (by decide) (by decide)
  obtain ⟨_, hpath⟩ := hrecursion [[1], [2], [3]] (by decide)
  obtain ⟨calls, hreturn, hshrink, hinside⟩ := hpath 2
  exact ⟨⟨k, hrun 64 le_rfl, hsplit⟩, calls, hreturn 67 (by decide),
    fun call hcall => ⟨hshrink call hcall, hinside (by decide) call hcall⟩⟩

end Usize

end Merkle

end Chainlog
