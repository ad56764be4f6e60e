import ServMark.Provenance
import ServMark.Library.Hexadecimal

/-! What output_generate_uuid prints: the text of a version 4 UUID, from whichever source its bits come. -/
namespace ServMark
open CText Printf

def hexBytes (bytes : List UInt8) : List Char := bytes.flatMap (fun byte => printHex 2 byte.toNat)

/-- The five groups of a UUID. -/
def uuidText (v : Vector UInt8 16) : List Char :=
  let bytes := fun first count => hexBytes ((v.toList.drop first).take count)
  ['-'].intercalate [bytes 0 4, bytes 4 2, bytes 6 2, bytes 8 2, bytes 10 6]

/-- Version 4 and the variant of its layout. -/
def Version4 (v : Vector UInt8 16) : Prop := (v.get 6).toNat / 16 = 4 ∧ (v.get 8).toNat / 64 = 2

theorem hexBytes_append (front back : List UInt8) : hexBytes (front ++ back) = hexBytes front ++ hexBytes back :=
  List.flatMap_append

theorem printHex_byte (byte : UInt8) : (printHex 2 byte.toNat).length = 2 :=
  printHex_length (by decide) byte.toNat_lt

theorem hexBytes_injective : Function.Injective hexBytes := by
  intro front back same
  induction front generalizing back with
  | nil =>
    cases back with
    | nil => rfl
    | cons c back =>
      have two := printHex_byte c
      have none : printHex 2 c.toNat = [] := (List.append_eq_nil_iff.mp same.symm).1
      rw [none] at two
      cases two
  | cons b front ih =>
    cases back with
    | nil =>
      have two := printHex_byte b
      have none : printHex 2 b.toNat = [] := (List.append_eq_nil_iff.mp same).1
      rw [none] at two
      cases two
    | cons c back =>
      obtain ⟨digits, others⟩ := List.append_inj same ((printHex_byte b).trans (printHex_byte c).symm)
      have number := congrArg (baseNumber 16) digits
      rw [baseNumber_printHex, baseNumber_printHex] at number
      rw [UInt8.toNat_inj.mp number, ih others]

theorem hexBytes_dashless (bytes : List UInt8) : (hexBytes bytes).filter (fun c => c ≠ '-') = hexBytes bytes := by
  refine List.filter_eq_self.mpr (fun c member => ?_)
  obtain ⟨byte, _, among⟩ := List.mem_flatMap.mp member
  obtain ⟨d, small, rfl⟩ := printHex_digits c among
  exact decide_eq_true (hex_digit d small).2.2.1

theorem dashes_eq (a b c d e : List Char) : ['-'].intercalate [a, b, c, d, e] =
    a ++ (['-'] ++ (b ++ (['-'] ++ (c ++ (['-'] ++ (d ++ (['-'] ++ e))))))) := by simp [List.intercalate]

/-- Without its dashes the text is the sixteen bytes in order. -/
theorem uuidText_digits (v : Vector UInt8 16) : (uuidText v).filter (fun c => c ≠ '-') = hexBytes v.toList := by
  have dash : ['-'].filter (fun c => decide (c ≠ '-')) = [] := by decide
  unfold uuidText
  simp only [dashes_eq, List.filter_append, hexBytes_dashless, dash, List.nil_append, ← hexBytes_append]
  congr 1
  have whole := v.length_toList
  generalize v.toList = bytes at whole
  match bytes, whole with
  | [_, _, _, _, _, _, _, _, _, _, _, _, _, _, _, _], _ => rfl

theorem uuidText_injective : Function.Injective uuidText := by
  intro v w same
  have digits := congrArg (List.filter (fun c => decide (c ≠ '-'))) same
  rw [uuidText_digits, uuidText_digits] at digits
  exact Vector.toList_inj.mp (hexBytes_injective digits)

theorem uuidText_length (v : Vector UInt8 16) : (uuidText v).length = 36 := by
  have pairs (bytes : List UInt8) : (hexBytes bytes).length = bytes.length * 2 := by
    induction bytes with
    | nil => rfl
    | cons byte bytes ih =>
      have own := printHex_byte byte
      simp only [hexBytes, List.flatMap_cons, List.length_append, List.length_cons] at ih ⊢
      omega
  have whole := v.length_toList
  unfold uuidText
  simp only [dashes_eq, List.length_append, List.length_singleton, pairs, List.length_take, List.length_drop]
  omega

/-- The bytes of a number, the high one first. -/
def bigEndian : Nat → Nat → List UInt8
  | 0, _ => []
  | count + 1, n => bigEndian count (n / 256) ++ [UInt8.ofNat n]

theorem bigEndian_length (count n : Nat) : (bigEndian count n).length = count := by
  induction count generalizing n with
  | zero => rfl
  | succ count ih => rw [bigEndian, List.length_append, ih, List.length_singleton]

theorem hexBytes_bigEndian (count n : Nat) : hexBytes (bigEndian count n) = hexDigits (2 * count) n := by
  induction count generalizing n with
  | zero => rfl
  | succ count ih =>
    have last : hexBytes [UInt8.ofNat n] = hexDigits 2 n := by
      have value : (UInt8.ofNat n).toNat = n % 256 := rfl
      have high : n % 256 / 16 % 16 = n / 16 % 16 := by omega
      have low : n % 256 % 16 = n % 16 := by omega
      rw [hexBytes, List.flatMap_singleton, value, printHex_eq (show n % 256 < 16 ^ (1 + 1) by omega)]
      simp only [hexDigits, high, low]
    have split := hexDigits_append (2 * count) 2 n
    rw [bigEndian, hexBytes_append, ih, last]
    exact split.symm

theorem bigEndian_word {n : Nat} (fits : n < 2 ^ 32) : hexBytes (bigEndian 4 n) = printHex 8 n := by
  rw [hexBytes_bigEndian]
  exact (printHex_eq (show n < 16 ^ (7 + 1) by omega)).symm

theorem bigEndian_half {n : Nat} (fits : n < 2 ^ 16) : hexBytes (bigEndian 2 n) = printHex 4 n := by
  rw [hexBytes_bigEndian]
  exact (printHex_eq (show n < 16 ^ (3 + 1) by omega)).symm

/- The text of sixteen bytes that come in five groups. -/
theorem uuidText_groups {v : Vector UInt8 16} {a b c d e : List UInt8} (whole : v.toList = a ++ (b ++ (c ++ (d ++ e))))
    (sizes : a.length = 4 ∧ b.length = 2 ∧ c.length = 2 ∧ d.length = 2 ∧ e.length = 6) :
    uuidText v = ['-'].intercalate [hexBytes a, hexBytes b, hexBytes c, hexBytes d, hexBytes e] := by
  obtain ⟨ha, hb, hc, hd, he⟩ := sizes
  simp only [uuidText, whole]
  have first : (a ++ (b ++ (c ++ (d ++ e)))).drop 4 = b ++ (c ++ (d ++ e)) := List.drop_left' ha
  have second : (b ++ (c ++ (d ++ e))).drop 2 = c ++ (d ++ e) := List.drop_left' hb
  have third : (c ++ (d ++ e)).drop 2 = d ++ e := List.drop_left' hc
  have fourth : (d ++ e).drop 2 = e := List.drop_left' hd
  have six : (a ++ (b ++ (c ++ (d ++ e)))).drop 6 = c ++ (d ++ e) := by
    rw [show 6 = 4 + 2 from rfl, ← List.drop_drop, first, second]
  have eight : (a ++ (b ++ (c ++ (d ++ e)))).drop 8 = d ++ e := by
    rw [show 8 = 6 + 2 from rfl, ← List.drop_drop, six, third]
  have ten : (a ++ (b ++ (c ++ (d ++ e)))).drop 10 = e := by
    rw [show 10 = 8 + 2 from rfl, ← List.drop_drop, eight, fourth]
  simp only [List.drop_zero, first, six, eight, ten, List.take_left' ha, List.take_left' hb, List.take_left' hc,
    List.take_left' hd, List.take_of_length_le he.le]

theorem version_inside : 6 < 16 := by decide

theorem variant_inside : 8 < 16 := by decide

/-- The bytes read from /dev/urandom with version and variant stored over six of their bits. -/
def stamped (r : Vector UInt8 16) : Vector UInt8 16 :=
  (r.set 6 (r.get 6 &&& 0x0f ||| 0x40) version_inside).set 8 (r.get 8 &&& 0x3f ||| 0x80) variant_inside

theorem generate_stamped (r : Vector UInt8 16) (rand : Nat → UInt32) :
    outputGenerateUuid (some r) rand = uuidText (stamped r) := rfl

theorem stamp_version (byte : UInt8) : (byte &&& 0x0f ||| 0x40).toNat = 64 + byte.toNat % 16 := by
  have all : ∀ n < 256, (UInt8.ofNat n &&& 0x0f ||| 0x40).toNat = 64 + n % 16 := by decide +kernel
  have own := all byte.toNat byte.toNat_lt
  rwa [UInt8.ofNat_toNat] at own

theorem stamp_variant (byte : UInt8) : (byte &&& 0x3f ||| 0x80).toNat = 128 + byte.toNat % 64 := by
  have all : ∀ n < 256, (UInt8.ofNat n &&& 0x3f ||| 0x80).toNat = 128 + n % 64 := by decide +kernel
  have own := all byte.toNat byte.toNat_lt
  rwa [UInt8.ofNat_toNat] at own

theorem stamped_get (r : Vector UInt8 16) (i : Fin 16) : (stamped r).get i =
    if i = 8 then r.get 8 &&& 0x3f ||| 0x80 else if i = 6 then r.get 6 &&& 0x0f ||| 0x40 else r.get i := by
  have eight : 8 = i.val ↔ i = 8 := by omega
  have six : 6 = i.val ↔ i = 6 := by omega
  have cell (v : Vector UInt8 16) : v.get i = v[i.val] := rfl
  simp only [stamped, cell, Vector.getElem_set, eight, six]

theorem stamped_six (r : Vector UInt8 16) : ((stamped r).get 6).toNat = 64 + (r.get 6).toNat % 16 := by
  rw [stamped_get, if_neg (by decide), if_pos rfl, stamp_version]

theorem stamped_eight (r : Vector UInt8 16) : ((stamped r).get 8).toNat = 128 + (r.get 8).toNat % 64 := by
  rw [stamped_get, if_pos rfl, stamp_variant]

theorem bytes_ext {v w : Vector UInt8 16} (same : ∀ i : Fin 16, v.get i = w.get i) : v = w :=
  Vector.ext (fun i within => same ⟨i, within⟩)

theorem stamped_version4 (r : Vector UInt8 16) : Version4 (stamped r) := by
  have six := stamped_six r
  have eight := stamped_eight r
  constructor <;> omega

/-- Bytes that already carry version and variant stay as they are. -/
theorem stamped_fixed {v : Vector UInt8 16} (own : Version4 v) : stamped v = v := by
  obtain ⟨version, variant⟩ := own
  refine bytes_ext (fun i => ?_)
  rw [stamped_get]
  split
  · rename_i eq
    subst eq
    refine UInt8.toNat_inj.mp ?_
    rw [stamp_variant]
    omega
  · split
    · rename_i eq
      subst eq
      refine UInt8.toNat_inj.mp ?_
      rw [stamp_version]
      omega
    · rfl

/-- The 122 bits of the bytes that are free. -/
structure SameFree (r s : Vector UInt8 16) : Prop where
  others : ∀ i : Fin 16, i ≠ 6 → i ≠ 8 → r.get i = s.get i
  six : (r.get 6).toNat % (16 : Nat) = (s.get 6).toNat % (16 : Nat)
  eight : (r.get 8).toNat % (64 : Nat) = (s.get 8).toNat % (64 : Nat)

theorem stamped_same (r s : Vector UInt8 16) : stamped r = stamped s ↔ SameFree r s := by
  constructor
  · intro same
    have six := stamped_six r
    have eight := stamped_eight r
    rw [same, stamped_six] at six
    rw [same, stamped_eight] at eight
    refine ⟨fun i other another => ?_, by omega, by omega⟩
    have own := congrArg (fun v => Vector.get v i) same
    simp only [stamped_get, if_neg another, if_neg other] at own
    exact own
  · rintro ⟨others, six, eight⟩
    refine bytes_ext (fun i => ?_)
    rw [stamped_get, stamped_get]
    split
    · exact UInt8.toNat_inj.mp (by rw [stamp_variant, stamp_variant, eight])
    · split
      · exact UInt8.toNat_inj.mp (by rw [stamp_version, stamp_version, six])
      · rename_i another other
        exact others i other another

theorem word_low (x : UInt32) : (x &&& 0xffff).toNat = x.toNat % 2 ^ 16 := by
  rw [UInt32.toNat_and]
  exact Nat.and_two_pow_sub_one_eq_mod x.toNat 16

/- A mark stored over the bits above the low ones. -/
theorem marked_low {low mark : Nat} (below : low ≤ mark) (x : Nat) :
    (x &&& (2 ^ low - 1)) ||| 2 ^ mark = 2 ^ mark + x % 2 ^ low := by
  have fits : x % 2 ^ low < 2 ^ mark :=
    Nat.lt_of_lt_of_le (Nat.mod_lt x (Nat.two_pow_pos low)) (Nat.pow_le_pow_right (by decide) below)
  have joined := Nat.two_pow_add_eq_or_of_lt fits 1
  rw [Nat.mul_one] at joined
  rw [Nat.and_two_pow_sub_one_eq_mod, Nat.or_comm, joined]

theorem word_version (x : UInt32) : (x &&& 0x0fff ||| 0x4000).toNat = 2 ^ 14 + x.toNat % 2 ^ 12 := by
  rw [UInt32.toNat_or, UInt32.toNat_and]
  exact marked_low (show 12 ≤ 14 by decide) x.toNat

theorem word_variant (x : UInt32) : (x &&& 0x3fff ||| 0x8000).toNat = 2 ^ 15 + x.toNat % 2 ^ 14 := by
  rw [UInt32.toNat_or, UInt32.toNat_and]
  exact marked_low (show 14 ≤ 15 by decide) x.toNat

/-- The bytes that six results of rand() give. -/
def randBytes (rand : Nat → UInt32) : Vector UInt8 16 :=
  ⟨(bigEndian 4 (rand 0).toNat ++ (bigEndian 2 (rand 1 &&& 0xffff).toNat ++
    (bigEndian 2 (rand 2 &&& 0x0fff ||| 0x4000).toNat ++ (bigEndian 2 (rand 3 &&& 0x3fff ||| 0x8000).toNat ++
      (bigEndian 2 (rand 4 &&& 0xffff).toNat ++ bigEndian 4 (rand 5).toNat))))).toArray, rfl⟩

theorem generate_rand (rand : Nat → UInt32) : outputGenerateUuid none rand = uuidText (randBytes rand) := by
  have first := word_low (rand 1)
  have version := word_version (rand 2)
  have variant := word_variant (rand 3)
  have last := word_low (rand 4)
  have groups := uuidText_groups (show (randBytes rand).toList = _ from rfl)
    ⟨bigEndian_length 4 _, bigEndian_length 2 _, bigEndian_length 2 _, bigEndian_length 2 _, by
      rw [List.length_append, bigEndian_length, bigEndian_length]⟩
  rw [groups, hexBytes_append, bigEndian_word (rand 0).toNat_lt, bigEndian_word (rand 5).toNat_lt,
    bigEndian_half (by omega), bigEndian_half (by omega), bigEndian_half (by omega), bigEndian_half (by omega)]
  rfl

theorem rand_version4 (rand : Nat → UInt32) : Version4 (randBytes rand) := by
  have version := word_version (rand 2)
  have variant := word_variant (rand 3)
  have six : ((randBytes rand).get 6).toNat = (rand 2 &&& 0x0fff ||| 0x4000).toNat / 256 % 256 := rfl
  have eight : ((randBytes rand).get 8).toNat = (rand 3 &&& 0x3fff ||| 0x8000).toNat / 256 % 256 := rfl
  constructor <;> omega

theorem generated_length (urandom : Option (Vector UInt8 16)) (rand : Nat → UInt32) :
    (outputGenerateUuid urandom rand).length = 36 := by
  cases urandom with
  | none => rw [generate_rand, uuidText_length]
  | some r => rw [generate_stamped, uuidText_length]

/-- Whatever /dev/urandom and rand() give, a version 4 UUID is printed, in the 36 characters the buffer has room for.
Every one can come up, no two have the same text, and bytes of /dev/urandom give the same one only if they
agree in all of their 122 free bits. -/
theorem uuid_version4 :
    (∀ urandom rand, ∃ v, Version4 v ∧ outputGenerateUuid urandom rand = uuidText v ∧
      (outputGenerateUuid urandom rand).length = 36) ∧
    (∀ v, Version4 v → ∃ r, ∀ rand, outputGenerateUuid (some r) rand = uuidText v) ∧
    Function.Injective uuidText ∧
    ∀ r s rand rand', outputGenerateUuid (some r) rand = outputGenerateUuid (some s) rand' ↔ SameFree r s := by
  refine ⟨fun urandom rand => ?_, fun v own => ⟨v, fun rand => ?_⟩, uuidText_injective, fun r s rand rand' => ?_⟩
  · cases urandom with
    | none => exact ⟨randBytes rand, rand_version4 rand, generate_rand rand, generated_length none rand⟩
    | some r => exact ⟨stamped r, stamped_version4 r, generate_stamped r rand, generated_length (some r) rand⟩
  · rw [generate_stamped, stamped_fixed own]
  · rw [generate_stamped, generate_stamped, uuidText_injective.eq_iff, stamped_same]

end ServMark
