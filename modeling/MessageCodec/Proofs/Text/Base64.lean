import MessageCodec.Text

/-! Base64 is read back. A character stands for the six bits that it was made of and is never
an equals sign, so the ends that are filled up are told apart from the whole groups. -/

namespace MessageCodec.Text.Base64

theorem sextet?_character : ∀ n < 64, sextet? (character n) = some n := by decide

theorem character_ne_equals : ∀ n < 64, character n ≠ '=' := by decide

/-- A group whose last character is not an equals sign holds three bytes. -/
theorem decode?_group {a b c d : Char} {rest : List Char} (whole : d ≠ '=') :
    decode? (a :: b :: c :: d :: rest) = do
      let n := 262144 * (← sextet? a) + 4096 * (← sextet? b) + 64 * (← sextet? c) + (← sextet? d)
      return UInt8.ofNat (n / 65536) :: UInt8.ofNat (n / 256 % 256) :: UInt8.ofNat (n % 256) ::
        (← decode? rest) := by
  rw [decode?]
  · rintro - rfl
    exact absurd rfl whole
  · rintro rfl
    exact absurd rfl whole

theorem ofNat_of_eq_toNat {n : Nat} {b : UInt8} (h : n = b.toNat) : UInt8.ofNat n = b := by
  rw [h, UInt8.ofNat_toNat]

theorem decode?_encode (bs : Bytes) : decode? (encode bs) = some bs := by
  fun_induction encode bs with
  | case1 a b c rest n ih =>
    have ha := a.toNat_lt
    have hb := b.toNat_lt
    have hc := c.toNat_lt
    have hn : n = 65536 * a.toNat + 256 * b.toNat + c.toNat := rfl
    have whole :
        262144 * (n / 262144) + 4096 * (n / 4096 % 64) + 64 * (n / 64 % 64) + n % 64 = n := by omega
    rw [decode?_group (character_ne_equals _ (by omega)), ih]
    simp only [sextet?_character (n / 262144) (by omega),
      sextet?_character (n / 4096 % 64) (by omega), sextet?_character (n / 64 % 64) (by omega),
      sextet?_character (n % 64) (by omega), Option.bind_eq_bind, Option.bind_some, whole,
      Option.pure_def]
    rw [ofNat_of_eq_toNat (b := a) (by omega), ofNat_of_eq_toNat (b := b) (by omega),
      ofNat_of_eq_toNat (b := c) (by omega)]
  | case2 a b n =>
    have ha := a.toNat_lt
    have hb := b.toNat_lt
    have hn : n = 256 * a.toNat + b.toNat := rfl
    have whole : 4096 * (n / 1024) + 64 * (n / 16 % 64) + n % 16 * 4 = 4 * n := by omega
    rw [decode?]
    · simp only [sextet?_character (n / 1024) (by omega),
        sextet?_character (n / 16 % 64) (by omega), sextet?_character (n % 16 * 4) (by omega),
        Option.bind_eq_bind, Option.bind_some, whole]
      rw [if_pos (by omega), ofNat_of_eq_toNat (b := a) (by omega),
        ofNat_of_eq_toNat (b := b) (by omega)]
    · exact character_ne_equals _ (by omega)
  | case3 a =>
    have ha := a.toNat_lt
    have whole : 64 * (a.toNat / 4) + a.toNat % 4 * 16 = 16 * a.toNat := by omega
    simp only [decode?, sextet?_character (a.toNat / 4) (by omega),
      sextet?_character (a.toNat % 4 * 16) (by omega), Option.bind_eq_bind, Option.bind_some, whole]
    rw [if_pos (by omega), ofNat_of_eq_toNat (b := a) (by omega)]
  | case4 => rfl

end MessageCodec.Text.Base64
