import PathSieve.Text.Utf8

/-!
# Reading encoded text

Decoding undoes encoding (`decode_encode`), whatever the text is. A character takes up to four
bytes. The first says how many more there are and holds the highest bits of the code point, and
every other adds six bits, so reading a character is an addition in base 64.

The decoder is strict about the second byte of four kinds of characters. A character keeps these
bounds by being a code point: it is written no longer than it has to be, and it is no surrogate.
-/

namespace PathSieve.Text.Utf8

/-! ## First bytes -/

theorem start_one : ∀ n < 0x80, start (UInt8.ofNat n) = ([Char.ofNat n], .between) := by
  decide

theorem start_two : ∀ n < 32, 2 ≤ n →
    start (UInt8.ofNat (n + 192)) = ([], .inside 0 0x80 0xBF n) := by
  decide

theorem start_three : ∀ n < 16, start (UInt8.ofNat (n + 224)) =
    ([], .inside 1 (if n = 0 then 0xA0 else 0x80) (if n = 13 then 0x9F else 0xBF) n) := by
  decide

theorem start_four : ∀ n < 5, start (UInt8.ofNat (n + 240)) =
    ([], .inside 2 (if n = 0 then 0x90 else 0x80) (if n = 4 then 0x8F else 0xBF) n) := by
  decide

/-! ## Further bytes -/

theorem run_cons (s : State) (b : UInt8) (bs : List UInt8) :
    run s (b :: bs) = (step s b).1 ++ run (step s b).2 bs := by
  cases s <;> rfl

theorem run_start {b : UInt8} {next : State} (h : start b = ([], next)) (bs : List UInt8) :
    run .between (b :: bs) = run next bs := by
  rw [run_cons, step, h]
  rfl

variable {low high : UInt8} {value n more : Nat}

theorem step_inside (hlow : low.toNat ≤ n % 64 + 128) (hhigh : n % 64 + 128 ≤ high.toNat) :
    step (.inside more low high value) (UInt8.ofNat (n % 64 + 128)) =
      match more with
      | 0 => ([Char.ofNat (value * 64 + n % 64)], .between)
      | more + 1 => ([], .inside more 0x80 0xBF (value * 64 + n % 64)) := by
  have hbyte : (UInt8.ofNat (n % 64 + 128)).toNat = n % 64 + 128 := by
    rw [UInt8.toNat_ofNat']
    omega
  have hbounds : low ≤ UInt8.ofNat (n % 64 + 128) ∧ UInt8.ofNat (n % 64 + 128) ≤ high := by
    rw [UInt8.le_iff_toNat_le, UInt8.le_iff_toNat_le, hbyte]
    exact ⟨hlow, hhigh⟩
  cases more <;> simp only [step, if_pos hbounds, hbyte, Nat.add_sub_cancel]

/-- The last byte of a character completes it. -/
theorem run_inside_last (hlow : low.toNat ≤ n % 64 + 128) (hhigh : n % 64 + 128 ≤ high.toNat)
    (bs : List UInt8) :
    run (.inside 0 low high value) (UInt8.ofNat (n % 64 + 128) :: bs) =
      Char.ofNat (value * 64 + n % 64) :: run .between bs := by
  rw [run_cons, step_inside hlow hhigh]
  rfl

/-- Any other byte adds six bits. -/
theorem run_inside_more (hlow : low.toNat ≤ n % 64 + 128) (hhigh : n % 64 + 128 ≤ high.toNat)
    (bs : List UInt8) :
    run (.inside (more + 1) low high value) (UInt8.ofNat (n % 64 + 128) :: bs) =
      run (.inside more 0x80 0xBF (value * 64 + n % 64)) bs := by
  rw [run_cons, step_inside hlow hhigh]
  rfl

theorem low_le (n : Nat) : (0x80 : UInt8).toNat ≤ n % 64 + 128 := Nat.le_add_left 128 _

theorem le_high (n : Nat) : n % 64 + 128 ≤ (0xBF : UInt8).toNat := by
  show n % 64 + 128 ≤ 191
  omega

/-! ## Characters by their length -/

variable {v : Nat}

theorem run_two (hlong : 0x80 ≤ v) (hshort : v < 0x800) (bs : List UInt8) :
    run .between (UInt8.ofNat (v / 64 % 32 + 192) :: UInt8.ofNat (v % 64 + 128) :: bs) =
      Char.ofNat v :: run .between bs := by
  have hv : v / 64 % 32 * 64 + v % 64 = v := by omega
  rw [run_start (start_two (v / 64 % 32) (by omega) (by omega)),
    run_inside_last (low_le v) (le_high v), hv]

theorem run_three (hlong : 0x800 ≤ v) (hshort : v < 0x10000) (hvalid : v < 0xD800 ∨ 0xDFFF < v)
    (bs : List UInt8) :
    run .between (UInt8.ofNat (v / 4096 % 16 + 224) :: UInt8.ofNat (v / 64 % 64 + 128) ::
        UInt8.ofNat (v % 64 + 128) :: bs) =
      Char.ofNat v :: run .between bs := by
  have hv : (v / 4096 % 16 * 64 + v / 64 % 64) * 64 + v % 64 = v := by omega
  -- below `0x800` two bytes would do
  have hlow : (if v / 4096 % 16 = 0 then 0xA0 else 0x80 : UInt8).toNat ≤ v / 64 % 64 + 128 := by
    split
    · show 160 ≤ v / 64 % 64 + 128
      omega
    · exact low_le _
  -- from `0xD800` on there are surrogates
  have hhigh : v / 64 % 64 + 128 ≤ (if v / 4096 % 16 = 13 then 0x9F else 0xBF : UInt8).toNat := by
    split
    · show v / 64 % 64 + 128 ≤ 159
      omega
    · exact le_high _
  rw [run_start (start_three (v / 4096 % 16) (by omega)), run_inside_more hlow hhigh,
    run_inside_last (low_le v) (le_high v), hv]

theorem run_four (hlong : 0x10000 ≤ v) (hshort : v < 0x110000) (bs : List UInt8) :
    run .between (UInt8.ofNat (v / 262144 % 8 + 240) :: UInt8.ofNat (v / 4096 % 64 + 128) ::
        UInt8.ofNat (v / 64 % 64 + 128) :: UInt8.ofNat (v % 64 + 128) :: bs) =
      Char.ofNat v :: run .between bs := by
  have hv : ((v / 262144 % 8 * 64 + v / 4096 % 64) * 64 + v / 64 % 64) * 64 + v % 64 = v := by
    omega
  -- below `0x10000` three bytes would do
  have hlow : (if v / 262144 % 8 = 0 then 0x90 else 0x80 : UInt8).toNat ≤
      v / 4096 % 64 + 128 := by
    split
    · show 144 ≤ v / 4096 % 64 + 128
      omega
    · exact low_le _
  -- from `0x110000` on there are no code points
  have hhigh : v / 4096 % 64 + 128 ≤
      (if v / 262144 % 8 = 4 then 0x8F else 0xBF : UInt8).toNat := by
    split
    · show v / 4096 % 64 + 128 ≤ 143
      omega
    · exact le_high _
  rw [run_start (start_four (v / 262144 % 8) (by omega)), run_inside_more hlow hhigh,
    run_inside_more (low_le _) (le_high _), run_inside_last (low_le v) (le_high v), hv]

/-! ## Texts -/

/-- The bytes of a character are read as that character. -/
theorem run_encodeChar (c : Char) (bs : List UInt8) :
    run .between (String.utf8EncodeChar c ++ bs) = c :: run .between bs := by
  have hvalid : c.val.toNat < 0xD800 ∨ 0xDFFF < c.val.toNat ∧ c.val.toNat < 0x110000 := c.valid
  have hc : Char.ofNat c.val.toNat = c := Char.ofNat_toNat c
  unfold String.utf8EncodeChar
  generalize c.val.toNat = v at hvalid hc
  rw [← hc]
  by_cases hone : v ≤ 0x7F
  · rw [if_pos hone, List.singleton_append, run_cons, step, start_one v (by omega)]
    rfl
  · rw [if_neg hone]
    by_cases htwo : v ≤ 0x7FF
    · rw [if_pos htwo]
      exact run_two (by omega) (by omega) bs
    · rw [if_neg htwo]
      by_cases hthree : v ≤ 0xFFFF
      · rw [if_pos hthree]
        exact run_three (by omega) (by omega) (by omega) bs
      · rw [if_neg hthree]
        exact run_four (by omega) (by omega) bs

/-- Decoding gives an encoded text back. -/
theorem decode_encode (cs : List Char) : decode (encode cs) = cs := by
  show run .between (cs.flatMap String.utf8EncodeChar) = cs
  induction cs with
  | nil => rfl
  | cons c cs ih => rw [List.flatMap_cons, run_encodeChar, ih]

end PathSieve.Text.Utf8
