import GlusterFS.Core.BitMasks
import GlusterFS.Dht.Layout

/-!
# Directory offsets

The offset of an entry in a directory of a subvolume is given to the client together with
the number of the subvolume.  A small offset is multiplied by the number of subvolumes; a
huge one loses low bits to the number of the subvolume and gets a tag bit.
-/

namespace GlusterFS.Dht

open BitMasks

/-! ## The code -/

/-- The subvolumes of the translator, which an `int` counts. -/
structure Conf where
  subvolumes : List Subvol
  nodup : subvolumes.Nodup
  cnt_pos : 0 < subvolumes.length
  cnt_lt : subvolumes.length < 2 ^ 31

def Conf.subvolumeCnt (conf : Conf) : Nat := conf.subvolumes.length

/-- The loop of `dht_bits_for`. -/
def bitsLoop (num : UInt64) : Nat → UInt64 → Nat → Nat
  | 0, _, bits => bits
  | turns + 1, ctrl, bits =>
    if ctrl < num then bitsLoop num turns (ctrl * 2) (bits + 1) else bits

/-- `dht_bits_for`; an `int` is passed to it, for which 64 turns are enough. -/
def dhtBitsFor (num : UInt64) : Nat := bitsLoop num 64 1 0

def backendDOffBits : Nat := 63
def presentDOffBits : Nat := 63

/-- `MASK` -/
def mask : UInt64 := ~~~0

def presentMask : UInt64 := mask >>> UInt64.ofNat (64 - presentDOffBits)
def topBit : UInt64 := 1 <<< UInt64.ofNat (presentDOffBits - 1)
def shiftBits : UInt64 := UInt64.ofNat (backendDOffBits + 1 - presentDOffBits)

/-- `dht_subvol_cnt` -/
def dhtSubvolCnt (conf : Conf) (subvol : Subvol) : Int :=
  match conf.subvolumes.idxOf? subvol with
  | some i => i
  | none => -1

/-- `max_bits` -/
def Conf.maxBits (conf : Conf) : Nat := dhtBitsFor (UInt64.ofNat conf.subvolumeCnt)

/-- `hi_mask`: the bits that a small offset does not have. -/
def hiMask (maxBits : Nat) : UInt64 := ~~~(presentMask >>> UInt64.ofNat (maxBits + 1))

/-- `dht_itransform` -/
def dhtItransform (conf : Conf) (subvol : Subvol) (x : UInt64) : UInt64 :=
  if x = mask then mask
  else
    let cnt := UInt64.ofInt (dhtSubvolCnt conf subvol)
    if conf.subvolumeCnt = 1 then x
    else if x &&& hiMask conf.maxBits ≠ 0 then
      let offMask := mask <<< UInt64.ofNat conf.maxBits
      topBit ||| ((x >>> shiftBits) &&& offMask) ||| cnt
    else x * UInt64.ofNat conf.subvolumeCnt + cnt

/-- The index of the subvolume and the offset that `dht_deitransform` computes. -/
def deitransform (conf : Conf) (y : UInt64) : UInt64 × UInt64 :=
  if conf.subvolumeCnt = 1 then (0, y)
  else if y &&& topBit ≠ 0 then
    let offMask := mask <<< UInt64.ofNat conf.maxBits
    let hostMask := ~~~offMask
    (y &&& hostMask, ((y &&& ~~~topBit) &&& offMask) <<< shiftBits)
  else (y % UInt64.ofNat conf.subvolumeCnt, y / UInt64.ofNat conf.subvolumeCnt)

/-- `dht_deitransform`; there is no subvolume where it reads behind the end of the array. -/
def dhtDeitransform (conf : Conf) (y : UInt64) : Option Subvol × UInt64 :=
  let (cnt, x) := deitransform conf y
  (conf.subvolumes[cnt.toNat]?, x)

/-! ## Bits for the number of subvolumes -/

theorem bitsLoop_eq {num : UInt64} (hnum : num.toNat ≤ 2 ^ 63) {turns bits : Nat} {ctrl : UInt64}
    (hctrl : ctrl.toNat = 2 ^ bits) (hbits : bits ≤ Nat.clog 2 num.toNat)
    (hturns : Nat.clog 2 num.toNat < bits + turns) :
    bitsLoop num turns ctrl bits = Nat.clog 2 num.toNat := by
  induction turns generalizing ctrl bits with
  | zero => omega
  | succ turns ih =>
    rw [bitsLoop]
    split
    next hless =>
      rw [UInt64.lt_iff_toNat_lt, hctrl] at hless
      have hnext : bits < Nat.clog 2 num.toNat := (Nat.lt_clog_iff_pow_lt (by decide)).mpr hless
      refine ih ?_ hnext (by omega)
      rw [UInt64.toNat_mul, hctrl, Nat.pow_succ]
      exact Nat.mod_eq_of_lt (by simp; omega)
    next hmore =>
      rw [UInt64.lt_iff_toNat_lt, hctrl, Nat.not_lt] at hmore
      exact le_antisymm hbits (Nat.clog_le_of_le_pow hmore)

namespace Conf

variable (conf : Conf)

theorem toNat_ofNat_cnt : (UInt64.ofNat conf.subvolumeCnt).toNat = conf.subvolumeCnt := by
  have hlt := conf.cnt_lt
  exact UInt64.toNat_ofNat_of_lt' (by simp [subvolumeCnt, UInt64.size]; omega)

theorem maxBits_eq : conf.maxBits = Nat.clog 2 conf.subvolumeCnt := by
  have hlt : conf.subvolumeCnt < 2 ^ 31 := conf.cnt_lt
  have hclog : Nat.clog 2 conf.subvolumeCnt ≤ 31 := Nat.clog_le_of_le_pow hlt.le
  have hnum := conf.toNat_ofNat_cnt
  rw [maxBits, dhtBitsFor, bitsLoop_eq (by omega) rfl (Nat.zero_le _) (by rw [hnum]; omega), hnum]

theorem maxBits_le : conf.maxBits ≤ 31 :=
  conf.maxBits_eq ▸ Nat.clog_le_of_le_pow conf.cnt_lt.le

theorem cnt_le_pow : conf.subvolumeCnt ≤ 2 ^ conf.maxBits :=
  conf.maxBits_eq ▸ Nat.le_pow_clog (by decide) _

end Conf

/-! ## The two forms as numbers -/

/-- The offset is encoded without loss. -/
def SmallForm (conf : Conf) (x : UInt64) : Prop := x &&& hiMask conf.maxBits = 0

variable {conf : Conf} {subvol : Subvol} {s : Nat} {x y : UInt64}

theorem hiMask_eq : ∀ maxBits < 32, hiMask maxBits = ~~~0 <<< UInt64.ofNat (62 - maxBits) := by
  decide +kernel

theorem smallForm_iff : SmallForm conf x ↔ x.toNat < 2 ^ (62 - conf.maxBits) := by
  have hbits := conf.maxBits_le
  rw [SmallForm, hiMask_eq _ (by omega), ← UInt64.toNat_inj,
    toNat_and_high x (by omega), UInt64.toNat_zero, Nat.mul_eq_zero]
  simp [Nat.div_eq_zero_iff]

theorem dhtSubvolCnt_eq (hsubvol : conf.subvolumes[s]? = some subvol) :
    dhtSubvolCnt conf subvol = s := by
  obtain ⟨hlt, rfl⟩ := List.getElem?_eq_some_iff.mp hsubvol
  have hindex : conf.subvolumes.idxOf? conf.subvolumes[s] = some s := by
    refine List.idxOf?_eq_some_iff.mpr ⟨hlt, rfl, fun j hj hsame => ?_⟩
    exact absurd ((List.getElem_inj conf.nodup).mp hsame) (by omega)
  rw [dhtSubvolCnt, hindex]

theorem lt_cnt (hsubvol : conf.subvolumes[s]? = some subvol) : s < conf.subvolumeCnt :=
  (List.getElem?_eq_some_iff.mp hsubvol).1

/-- Multiplied offsets stay below the tag bit. -/
theorem small_lt (hsmall : SmallForm conf x) (hs : s < conf.subvolumeCnt) :
    x.toNat * conf.subvolumeCnt + s < 2 ^ 62 := by
  have hbits := conf.maxBits_le
  rw [smallForm_iff] at hsmall
  calc x.toNat * conf.subvolumeCnt + s < (x.toNat + 1) * conf.subvolumeCnt := by
        rw [Nat.add_mul, Nat.one_mul]
        omega
    _ ≤ 2 ^ (62 - conf.maxBits) * 2 ^ conf.maxBits :=
        Nat.mul_le_mul hsmall conf.cnt_le_pow
    _ = 2 ^ 62 := by rw [← Nat.pow_add, Nat.sub_add_cancel (by omega)]

theorem toNat_ofInt_index (hs : s < conf.subvolumeCnt) : (UInt64.ofInt (s : Int)).toNat = s := by
  have hlt : conf.subvolumeCnt < 2 ^ 31 := conf.cnt_lt
  rw [UInt64.ofInt, UInt64.toNat_ofNat']
  omega

theorem ne_mask (hx : x.toNat < 2 ^ 63) : x ≠ mask := by
  rintro rfl
  exact absurd hx (by decide)

theorem dhtItransform_small (hsubvol : conf.subvolumes[s]? = some subvol)
    (hx : x.toNat < 2 ^ 63) (hsmall : SmallForm conf x) :
    (dhtItransform conf subvol x).toNat = x.toNat * conf.subvolumeCnt + s := by
  have hs := lt_cnt hsubvol
  have hlt := small_lt hsmall hs
  rw [dhtItransform, if_neg (ne_mask hx), dhtSubvolCnt_eq hsubvol]
  dsimp only
  split
  next hone =>
    rw [hone] at hs ⊢
    omega
  next =>
    have hform : ¬(x &&& hiMask conf.maxBits ≠ 0) := not_not.mpr hsmall
    rw [if_neg hform, UInt64.toNat_add, UInt64.toNat_mul, conf.toNat_ofNat_cnt,
      toNat_ofInt_index hs]
    omega

theorem toNat_topBit : topBit.toNat = 2 ^ 62 := by decide

theorem dhtItransform_huge (hsubvol : conf.subvolumes[s]? = some subvol)
    (hx : x.toNat < 2 ^ 63) (hcnt : conf.subvolumeCnt ≠ 1) (hhuge : ¬SmallForm conf x) :
    (dhtItransform conf subvol x).toNat =
      2 ^ 62 + x.toNat / 2 ^ (conf.maxBits + 1) * 2 ^ conf.maxBits + s := by
  have hs := lt_cnt hsubvol
  have hbits := conf.maxBits_le
  have hpow := conf.cnt_le_pow
  have hform : x &&& hiMask conf.maxBits ≠ 0 := hhuge
  have hhalf : (x >>> shiftBits).toNat = x.toNat / 2 := by
    rw [UInt64.toNat_shiftRight, Nat.shiftRight_eq_div_pow]
    rfl
  have hoff : ((x >>> shiftBits) &&& (mask <<< UInt64.ofNat conf.maxBits)).toNat =
      x.toNat / 2 ^ (conf.maxBits + 1) * 2 ^ conf.maxBits := by
    rw [mask, toNat_and_high _ (by omega), hhalf, Nat.div_div_eq_div_mul, Nat.pow_succ,
      Nat.mul_comm 2]
  have hoffLt : ((x >>> shiftBits) &&& (mask <<< UInt64.ofNat conf.maxBits)).toNat < 2 ^ 62 := by
    rw [mask, toNat_and_high _ (by omega), hhalf]
    exact Nat.lt_of_le_of_lt (Nat.div_mul_le_self _ _) (by omega)
  have htop : (topBit ||| ((x >>> shiftBits) &&& (mask <<< UInt64.ofNat conf.maxBits))).toNat =
      2 ^ 62 + x.toNat / 2 ^ (conf.maxBits + 1) * 2 ^ conf.maxBits := by
    rw [toNat_or_low 62 (by rw [toNat_topBit]) hoffLt, toNat_topBit, hoff]
  rw [dhtItransform, if_neg (ne_mask hx), dhtSubvolCnt_eq hsubvol]
  dsimp only
  rw [if_neg hcnt, if_pos hform, toNat_or_low conf.maxBits, htop, toNat_ofInt_index hs]
  · rw [htop]
    exact Nat.dvd_add (Nat.pow_dvd_pow 2 (by omega)) (Nat.dvd_mul_left _ _)
  · rw [toNat_ofInt_index hs]
    omega

theorem toNat_and_topBit (y : UInt64) : (y &&& topBit).toNat = y.toNat / 2 ^ 62 % 2 * 2 ^ 62 :=
  toNat_and_bit y (by decide)

theorem and_topBit_eq_zero_iff : y &&& topBit = 0 ↔ y.toNat / 2 ^ 62 % 2 = 0 := by
  rw [← UInt64.toNat_inj, toNat_and_topBit, UInt64.toNat_zero]
  omega

theorem deitransform_small (conf : Conf) (htag : y &&& topBit = 0) :
    (deitransform conf y).1.toNat = y.toNat % conf.subvolumeCnt ∧
      (deitransform conf y).2.toNat = y.toNat / conf.subvolumeCnt := by
  rw [deitransform]
  split
  next hone =>
    rw [hone]
    simp [Nat.mod_one]
  next =>
    rw [if_neg (not_not.mpr htag), UInt64.toNat_mod, UInt64.toNat_div, conf.toNat_ofNat_cnt]
    exact ⟨rfl, rfl⟩

theorem deitransform_huge_index (hcnt : conf.subvolumeCnt ≠ 1) (htag : y &&& topBit ≠ 0) :
    (deitransform conf y).1.toNat = y.toNat % 2 ^ conf.maxBits := by
  have hbits := conf.maxBits_le
  rw [deitransform, if_neg hcnt, if_pos htag]
  exact toNat_and_not_high y (by omega)

theorem deitransform_huge_offset (hcnt : conf.subvolumeCnt ≠ 1) {rest : Nat}
    (hy : y.toNat = 2 ^ 62 + rest) (hrest : rest < 2 ^ 62) :
    (deitransform conf y).2.toNat = rest / 2 ^ conf.maxBits * 2 ^ conf.maxBits * 2 := by
  have hbits := conf.maxBits_le
  have htag : y &&& topBit ≠ 0 := by
    rw [Ne, and_topBit_eq_zero_iff, hy]
    omega
  have hbelow : (y &&& ~~~topBit).toNat = rest := by
    have hsum := toNat_and_add_not y topBit
    rw [toNat_and_topBit, hy] at hsum
    omega
  have hoff : ((y &&& ~~~topBit) &&& (mask <<< UInt64.ofNat conf.maxBits)).toNat =
      rest / 2 ^ conf.maxBits * 2 ^ conf.maxBits := by
    rw [mask, toNat_and_high _ (by omega), hbelow]
  have hle : rest / 2 ^ conf.maxBits * 2 ^ conf.maxBits ≤ rest := Nat.div_mul_le_self _ _
  rw [deitransform, if_neg hcnt, if_pos htag]
  dsimp only
  rw [UInt64.toNat_shiftLeft, hoff, show shiftBits.toNat % 64 = 1 from rfl, Nat.shiftLeft_eq,
    Nat.pow_one, Nat.mod_eq_of_lt (by omega)]

theorem dhtItransform_one (hx : x.toNat < 2 ^ 63) (hone : conf.subvolumeCnt = 1) :
    dhtItransform conf subvol x = x := by
  rw [dhtItransform, if_neg (ne_mask hx)]
  exact if_pos hone

/-! ## There and back -/

section

variable (hsubvol : conf.subvolumes[s]? = some subvol)

include hsubvol

theorem and_topBit_of_small (hx : x.toNat < 2 ^ 63) (hsmall : SmallForm conf x) :
    dhtItransform conf subvol x &&& topBit = 0 := by
  have hlt := small_lt hsmall (lt_cnt hsubvol)
  rw [and_topBit_eq_zero_iff, dhtItransform_small hsubvol hx hsmall]
  omega

theorem deitransform_of_small (hx : x.toNat < 2 ^ 63) (hsmall : SmallForm conf x) :
    (deitransform conf (dhtItransform conf subvol x)).1.toNat = s ∧
      (deitransform conf (dhtItransform conf subvol x)).2.toNat = x.toNat := by
  have hs := lt_cnt hsubvol
  obtain ⟨hindex, hoffset⟩ := deitransform_small conf (and_topBit_of_small hsubvol hx hsmall)
  rw [hindex, hoffset, dhtItransform_small hsubvol hx hsmall]
  refine ⟨Nat.mul_add_mod_of_lt hs, ?_⟩
  rw [Nat.mul_comm, Nat.mul_add_div (by omega), Nat.div_eq_of_lt hs, Nat.add_zero]

/-- A huge offset comes back without the bits that made room for the subvolume. -/
theorem deitransform_of_huge (hx : x.toNat < 2 ^ 63) (hcnt : conf.subvolumeCnt ≠ 1)
    (hhuge : ¬SmallForm conf x) : (deitransform conf (dhtItransform conf subvol x)).1.toNat = s ∧
      (deitransform conf (dhtItransform conf subvol x)).2.toNat =
        x.toNat / 2 ^ (conf.maxBits + 1) * 2 ^ (conf.maxBits + 1) := by
  have hbits := conf.maxBits_le
  have hs : s < 2 ^ conf.maxBits := Nat.lt_of_lt_of_le (lt_cnt hsubvol) conf.cnt_le_pow
  have hy := dhtItransform_huge hsubvol hx hcnt hhuge
  rw [Nat.add_assoc] at hy
  generalize hpart : x.toNat / 2 ^ (conf.maxBits + 1) = part at hy ⊢
  have hrest : part * 2 ^ conf.maxBits + s < 2 ^ 62 := by
    have hpart' : part < 2 ^ (62 - conf.maxBits) := by
      rw [← hpart, Nat.div_lt_iff_lt_mul (Nat.two_pow_pos _), ← Nat.pow_add]
      exact Nat.lt_of_lt_of_le hx (Nat.pow_le_pow_right (by decide) (by omega))
    calc part * 2 ^ conf.maxBits + s < (part + 1) * 2 ^ conf.maxBits := by
          rw [Nat.add_mul, Nat.one_mul]
          omega
      _ ≤ 2 ^ (62 - conf.maxBits) * 2 ^ conf.maxBits := Nat.mul_le_mul_right _ hpart'
      _ = 2 ^ 62 := by rw [← Nat.pow_add, Nat.sub_add_cancel (by omega)]
  have htag : dhtItransform conf subvol x &&& topBit ≠ 0 := by
    rw [Ne, and_topBit_eq_zero_iff, hy]
    omega
  have hpow : 2 ^ conf.maxBits ∣ 2 ^ 62 := Nat.pow_dvd_pow 2 (by omega)
  rw [deitransform_huge_index hcnt htag, deitransform_huge_offset hcnt hy hrest, hy,
    Nat.add_mod, Nat.mod_eq_zero_of_dvd hpow, Nat.zero_add, Nat.mod_mod]
  refine ⟨Nat.mul_add_mod_of_lt hs, ?_⟩
  rw [Nat.mul_comm part, Nat.mul_add_div (Nat.two_pow_pos _), Nat.div_eq_of_lt hs, Nat.add_zero,
    Nat.mul_assoc, ← Nat.pow_succ]

theorem dhtItransform_mono {x₁ x₂ : UInt64} (hx₂ : x₂.toNat < 2 ^ 63) (hle : x₁.toNat ≤ x₂.toNat) :
    (dhtItransform conf subvol x₁).toNat ≤ (dhtItransform conf subvol x₂).toNat := by
  have hx₁ : x₁.toNat < 2 ^ 63 := Nat.lt_of_le_of_lt hle hx₂
  by_cases hone : conf.subvolumeCnt = 1
  · rw [dhtItransform_one hx₁ hone, dhtItransform_one hx₂ hone]
    exact hle
  by_cases hsmall₁ : SmallForm conf x₁
  · rw [dhtItransform_small hsubvol hx₁ hsmall₁]
    by_cases hsmall₂ : SmallForm conf x₂
    · rw [dhtItransform_small hsubvol hx₂ hsmall₂]
      exact Nat.add_le_add_right (Nat.mul_le_mul_right _ hle) _
    · have hlt := small_lt hsmall₁ (lt_cnt hsubvol)
      rw [dhtItransform_huge hsubvol hx₂ hone hsmall₂]
      omega
  · have hhuge₂ : ¬SmallForm conf x₂ := by
      rw [smallForm_iff] at hsmall₁ ⊢
      omega
    rw [dhtItransform_huge hsubvol hx₁ hone hsmall₁, dhtItransform_huge hsubvol hx₂ hone hhuge₂]
    have hdiv : x₁.toNat / 2 ^ (conf.maxBits + 1) ≤ x₂.toNat / 2 ^ (conf.maxBits + 1) :=
      Nat.div_le_div_right hle
    have hmul := Nat.mul_le_mul_right (2 ^ conf.maxBits) hdiv
    omega

end

/-- An encoded offset of 63 bits comes back on its subvolume: a small one unchanged and
without the tag bit, a huge one with its low bits cleared.  Encodings keep the order. -/
theorem readdir_offset_round_trip (conf : Conf) (subvol : Subvol) (s : Nat)
    (hsubvol : conf.subvolumes[s]? = some subvol) (x : UInt64) (hx : x.toNat < 2 ^ 63) :
    (dhtDeitransform conf (dhtItransform conf subvol x)).1 = some subvol ∧ (SmallForm conf x →
        (dhtDeitransform conf (dhtItransform conf subvol x)).2 = x ∧
          dhtItransform conf subvol x &&& topBit = 0) ∧
      (¬SmallForm conf x → (dhtDeitransform conf (dhtItransform conf subvol x)).2 ≤ x ∧
          x.toNat - (dhtDeitransform conf (dhtItransform conf subvol x)).2.toNat <
            2 ^ (Nat.clog 2 conf.subvolumeCnt + 1)) ∧
      ∀ x' : UInt64, x'.toNat < 2 ^ 63 → x ≤ x' →
        dhtItransform conf subvol x ≤ dhtItransform conf subvol x' := by
  have hmono : ∀ x' : UInt64, x'.toNat < 2 ^ 63 → x ≤ x' →
      dhtItransform conf subvol x ≤ dhtItransform conf subvol x' := by
    intro x' hx' hle
    exact UInt64.le_iff_toNat_le.mpr
      (dhtItransform_mono hsubvol hx' (UInt64.le_iff_toNat_le.mp hle))
  simp only [dhtDeitransform]
  by_cases hsmall : SmallForm conf x
  · obtain ⟨hindex, hoffset⟩ := deitransform_of_small hsubvol hx hsmall
    rw [hindex]
    refine ⟨hsubvol, fun _ => ⟨UInt64.toNat_inj.mp hoffset, ?_⟩, fun h => absurd hsmall h, hmono⟩
    exact and_topBit_of_small hsubvol hx hsmall
  by_cases hone : conf.subvolumeCnt = 1
  · have hs := lt_cnt hsubvol
    obtain rfl : s = 0 := by omega
    rw [dhtItransform_one hx hone, deitransform, if_pos hone]
    refine ⟨hsubvol, fun h => absurd h hsmall, fun _ => ⟨UInt64.le_refl x, ?_⟩, ?_⟩
    · rw [Nat.sub_self]
      exact Nat.two_pow_pos _
    · rwa [dhtItransform_one hx hone] at hmono
  · obtain ⟨hindex, hoffset⟩ := deitransform_of_huge hsubvol hx hone hsmall
    have hmod := Nat.mod_add_div' x.toNat (2 ^ (conf.maxBits + 1))
    have hlt := Nat.mod_lt x.toNat (Nat.two_pow_pos (conf.maxBits + 1))
    rw [hindex]
    refine ⟨hsubvol, fun h => absurd h hsmall, fun _ => ⟨?_, ?_⟩, hmono⟩
    · rw [UInt64.le_iff_toNat_le, hoffset]
      omega
    · rw [hoffset, ← conf.maxBits_eq]
      omega

def threeSubvolumes : Conf := ⟨[0, 1, 2], by decide, by decide, by decide⟩

theorem readdir_offset_round_trip_huge :
    (dhtDeitransform threeSubvolumes (dhtItransform threeSubvolumes 2 0x400000000000000d)).1 =
        some 2 ∧
      (dhtDeitransform threeSubvolumes (dhtItransform threeSubvolumes 2 0x400000000000000d)).2 ≤
        0x400000000000000d := by
  have hround := readdir_offset_round_trip threeSubvolumes 2 2 rfl 0x400000000000000d (by decide)
  exact ⟨hround.1, (hround.2.2.1 (by rw [smallForm_iff]; decide +kernel)).1⟩

/-! ## Any offset -/

/-- Offsets without the tag bit select a subvolume.  All offsets do exactly where the number
of subvolumes is a power of two: otherwise the bits kept for it have room for more. -/
theorem readdir_offset_index_in_range (conf : Conf) :
    (∀ y, y &&& topBit = 0 → (deitransform conf y).1.toNat < conf.subvolumeCnt) ∧
      ((∀ y, (deitransform conf y).1.toNat < conf.subvolumeCnt) ↔
        ∃ bits, conf.subvolumeCnt = 2 ^ bits) := by
  have hpos : 0 < conf.subvolumeCnt := conf.cnt_pos
  have huntagged : ∀ y, y &&& topBit = 0 →
      (deitransform conf y).1.toNat < conf.subvolumeCnt := by
    intro y htag
    rw [(deitransform_small conf htag).1]
    exact Nat.mod_lt _ hpos
  refine ⟨huntagged, fun hall => ⟨conf.maxBits, ?_⟩, ?_⟩
  · by_contra hpow
    have hroom : conf.subvolumeCnt < 2 ^ conf.maxBits :=
      Nat.lt_of_le_of_ne conf.cnt_le_pow hpow
    -- The tagged offset whose low bits are the number of subvolumes.
    have hcnt : conf.subvolumeCnt < 2 ^ 31 := conf.cnt_lt
    have hy : (UInt64.ofNat (2 ^ 62 + conf.subvolumeCnt)).toNat =
        2 ^ 62 + conf.subvolumeCnt :=
      UInt64.toNat_ofNat_of_lt' (by simp [UInt64.size]; omega)
    have hindex := hall (UInt64.ofNat (2 ^ 62 + conf.subvolumeCnt))
    have hone : conf.subvolumeCnt ≠ 1 := by
      intro hone
      rw [conf.maxBits_eq, hone] at hroom
      exact absurd hroom (by simp)
    have hdvd : 2 ^ conf.maxBits ∣ 2 ^ 62 :=
      Nat.pow_dvd_pow 2 (Nat.le_trans conf.maxBits_le (by decide))
    rw [deitransform_huge_index hone (by rw [Ne, and_topBit_eq_zero_iff, hy]; omega), hy,
      Nat.add_mod, Nat.mod_eq_zero_of_dvd hdvd, Nat.zero_add, Nat.mod_mod,
      Nat.mod_eq_of_lt hroom] at hindex
    exact Nat.lt_irrefl _ hindex
  · rintro ⟨bits, hbits⟩ y
    by_cases htag : y &&& topBit = 0
    · exact huntagged y htag
    by_cases hone : conf.subvolumeCnt = 1
    · rw [deitransform, if_pos hone]
      exact hpos
    · rw [deitransform_huge_index hone htag, conf.maxBits_eq, hbits,
        Nat.clog_pow 2 bits (by decide)]
      exact Nat.mod_lt _ (Nat.two_pow_pos _)

/-- With three subvolumes a tagged offset can select a fourth. -/
theorem tagged_offset_selects_fourth : ¬∀ (conf : Conf) (y : UInt64),
    (deitransform conf y).1.toNat < conf.subvolumeCnt := by
  intro hall
  exact absurd (hall threeSubvolumes 0x4000000000000003) (by decide +kernel)

end GlusterFS.Dht
