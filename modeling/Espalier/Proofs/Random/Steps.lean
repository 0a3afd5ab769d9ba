import Espalier.Random.Stream
import Mathlib.Data.Nat.ModEq

/-!
# Steps that lose nothing

A stream mixes its words by steps that can be undone: a word is combined with its own shift, turned,
or multiplied by an odd word. So no two words are mixed alike, and no two streams go on alike.

Results:
1. `mix_injective`: different words are mixed into different words.
2. `advance_injective`: different streams are followed by different streams.
-/

namespace Espalier.Stream

/-! ## Shifts -/

/-- A word is found again in its combination with another that is made of it bit by bit and is the
word itself for zero at most. -/
theorem xor_self_injective {f : UInt64 → UInt64} (hxor : ∀ w v, f (w ^^^ v) = f w ^^^ f v)
    (hfix : ∀ w, f w = w → w = 0) : Function.Injective fun w => w ^^^ f w := by
  intro w v h
  refine UInt64.xor_eq_zero_iff.mp (hfix _ ?_)
  rw [hxor, ← UInt64.xor_eq_zero_iff]
  calc f w ^^^ f v ^^^ (w ^^^ v) = w ^^^ f w ^^^ (v ^^^ f v) := by ac_rfl
    _ = 0 := UInt64.xor_eq_zero_iff.mpr h

theorem xor_shiftRight_injective {k : UInt64} (hk : 0 < k.toNat % 64) :
    Function.Injective fun w : UInt64 => w ^^^ (w >>> k) := by
  refine xor_self_injective (fun _ _ => UInt64.shiftRight_xor) fun w h => ?_
  have hshift : w.toNat / 2 ^ (k.toNat % 64) = w.toNat := by
    rw [← Nat.shiftRight_eq_div_pow, ← UInt64.toNat_shiftRight, h]
  rcases Nat.eq_zero_or_pos w.toNat with hzero | hpos
  · exact UInt64.toNat_inj.mp hzero
  · exact absurd hshift (Nat.ne_of_lt (Nat.div_lt_self hpos (Nat.one_lt_two_pow (by omega))))

theorem xor_shiftLeft_injective {k : UInt64} (hk : 0 < k.toNat % 64) :
    Function.Injective fun w : UInt64 => w ^^^ (w <<< k) := by
  refine xor_self_injective (fun _ _ => UInt64.shiftLeft_xor) fun w h => ?_
  have hshift : w.toNat * 2 ^ (k.toNat % 64) % 2 ^ 64 = w.toNat := by
    rw [← Nat.shiftLeft_eq, ← UInt64.toNat_shiftLeft, h]
  -- The shift has one zero more at its low end than the word, so the word is zero all along.
  have hdvd : ∀ i ≤ 64, 2 ^ i ∣ w.toNat := by
    intro i
    induction i with
    | zero => exact fun _ => Nat.one_dvd _
    | succ i ih =>
      intro hi
      rw [← hshift, Nat.dvd_mod_iff (Nat.pow_dvd_pow 2 hi), Nat.pow_succ]
      exact Nat.mul_dvd_mul (ih (Nat.le_of_succ_le hi)) (dvd_pow_self 2 (Nat.ne_of_gt hk))
  exact UInt64.toNat_inj.mp (Nat.eq_zero_of_dvd_of_lt (hdvd 64 (Nat.le_refl _)) w.toNat_lt)

/-! ## Turns and products -/

section Turns

variable {n : UInt64} (hn : 0 < n.toNat) (hn' : n.toNat < 64)

include hn' in
theorem upper_lt (w : UInt64) : w.toNat / 2 ^ (64 - n.toNat) < 2 ^ n.toNat := by
  refine Nat.div_lt_of_lt_mul ?_
  rw [← Nat.pow_add, Nat.sub_add_cancel (Nat.le_of_lt hn')]
  exact w.toNat_lt

include hn hn'

/-- A turned word has the upper part of the word below its lower part. -/
theorem toNat_turnLeft (w : UInt64) :
    (turnLeft w n).toNat =
      w.toNat % 2 ^ (64 - n.toNat) * 2 ^ n.toNat + w.toNat / 2 ^ (64 - n.toNat) := by
  have hrest : (64 - n).toNat = 64 - n.toNat :=
    UInt64.toNat_sub_of_le _ _ (UInt64.le_iff_toNat_le.mpr (Nat.le_of_lt hn'))
  have hsplit : 2 ^ 64 = 2 ^ (64 - n.toNat) * 2 ^ n.toNat := by
    rw [← Nat.pow_add, Nat.sub_add_cancel (Nat.le_of_lt hn')]
  rw [turnLeft, UInt64.toNat_or, UInt64.toNat_shiftLeft, UInt64.toNat_shiftRight, hrest,
    Nat.mod_eq_of_lt hn', Nat.mod_eq_of_lt (by omega : 64 - n.toNat < 64),
    Nat.shiftRight_eq_div_pow, Nat.shiftLeft_eq, hsplit, Nat.mul_mod_mul_right,
    ← Nat.shiftLeft_eq, ← Nat.shiftLeft_add_eq_or_of_lt (upper_lt hn' w)]

theorem turnLeft_injective : Function.Injective (turnLeft · n) := by
  intro w v h
  have hnat := congrArg UInt64.toNat h
  dsimp only at hnat
  rw [toNat_turnLeft hn hn' w, toNat_turnLeft hn hn' v] at hnat
  have hupper := congrArg (· % 2 ^ n.toNat) hnat
  simp only [Nat.mul_add_mod', Nat.mod_eq_of_lt (upper_lt hn' _)] at hupper
  rw [hupper, Nat.add_right_cancel_iff, Nat.mul_left_inj (Nat.two_pow_pos _).ne'] at hnat
  exact UInt64.toNat_inj.mp (Nat.ext_div_mod hupper hnat)

end Turns

theorem mul_injective {c d : UInt64} (h : c * d = 1) : Function.Injective (· * c) := by
  intro w v hmul
  have hundone := congrArg (· * d) hmul
  simpa only [UInt64.mul_assoc, h, UInt64.mul_one] using hundone

/-! ## Streams -/

theorem mix_injective : Function.Injective mix := by
  have hfirst := mul_injective (c := 0xbf58476d1ce4e5b9) (d := 0x96de1b173f119089) (by decide)
  have hsecond := mul_injective (c := 0x94d049bb133111eb) (d := 0x319642b2d24d8ec3) (by decide)
  exact (xor_shiftRight_injective (k := 31) (by decide)).comp
    ((hsecond.comp (xor_shiftRight_injective (k := 27) (by decide))).comp
      (hfirst.comp (xor_shiftRight_injective (k := 30) (by decide))))

/-- A stream is found again from the one behind its next word, word by word: the first word once
the last one is turned back, then the second, which the third has taken up with its own shift. -/
theorem advance_injective : Function.Injective advance := by
  rintro ⟨a0, a1, a2, a3⟩ ⟨b0, b1, b2, b3⟩ h
  simp only [advance, mk.injEq] at h
  obtain ⟨h0, h1, h2, h3⟩ := h
  have hd : a3 ^^^ a1 = b3 ^^^ b1 := turnLeft_injective (n := 45) (by decide) (by decide) h3
  rw [hd, UInt64.xor_left_inj] at h0
  subst h0
  have hcancel : ∀ c w : UInt64, w ^^^ (w <<< 17) = w ^^^ c ^^^ (c ^^^ (w <<< 17)) := fun c w => by
    rw [UInt64.xor_assoc w c, ← UInt64.xor_assoc c c, UInt64.xor_self, UInt64.zero_xor]
  have hsecond : a1 ^^^ (a1 <<< 17) = b1 ^^^ (b1 <<< 17) := by
    rw [hcancel (a2 ^^^ a0) a1, hcancel (b2 ^^^ a0) b1, h1, h2]
  obtain rfl := xor_shiftLeft_injective (k := 17) (by decide) hsecond
  rw [UInt64.xor_right_inj, UInt64.xor_left_inj] at h1
  rw [UInt64.xor_left_inj] at hd
  rw [h1, hd]

end Espalier.Stream
