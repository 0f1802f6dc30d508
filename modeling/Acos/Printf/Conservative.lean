import Acos.Printf.Model

/-!
# Formats without a width

On a format in which no conversion begins with `%0` the two functions do the same. The loops are
compared character by character: as long as no `0` follows a `%`, the index never jumps and `len` is
zero whenever a conversion is made.
-/

namespace Acos.Printf

open CString

/-- No `%` that begins a conversion is followed by `0`. -/
def NoWidth : List Byte → Bool → Prop
  | [], _ => True
  | c :: fmt, percent =>
      if c = 0 then True
      else if percent then c ≠ '0'.toUInt8 ∧ NoWidth fmt false
      else NoWidth fmt (c = '%'.toUInt8)

instance NoWidth.decidable : (fmt : List Byte) → (percent : Bool) → Decidable (NoWidth fmt percent)
  | [], _ => inferInstanceAs (Decidable True)
  | c :: fmt, percent =>
      have := NoWidth.decidable fmt false
      have := NoWidth.decidable fmt (c = '%'.toUInt8)
      inferInstanceAs (Decidable (if c = 0 then True else if percent then _ else _))

theorem putZeros_of_le {limit : Int} {room : Nat} {buf : List Byte} (hlimit : limit ≤ buf.length) :
    putZeros limit room buf = .ok buf := by
  cases room with
  | zero => exact if_neg (Int.not_lt.mpr hlimit)
  | succ room => exact if_neg (Int.not_lt.mpr hlimit)

/-- Without a width there is nothing to fill up. -/
theorem printint_zero (xx : Word) (base : Nat) (sgn : Bool) :
    Date.printint xx base sgn 0 = Alarm.printint xx base sgn := by
  rw [Date.printint, Alarm.printint]
  cases putDigits base bufSize (magnitude xx sgn).toNat [] with
  | error stop => rfl
  | ok buf =>
      have hlimit : ((0 : Word) - if isNeg xx sgn then 1 else 0).toInt ≤ buf.length := by
        have hle : ((0 : Word) - if isNeg xx sgn then 1 else 0).toInt ≤ 0 := by
          split <;> decide
        exact hle.trans (Int.natCast_nonneg _)
      change (putZeros _ _ buf >>= _) = _
      rw [putZeros_of_le hlimit]

theorem scan_eq (mem : Memory) (args : Args) {fmt : List Byte} {percent : Bool} {len : Word}
    {st : State} (hfmt : NoWidth fmt percent) (hlen : percent = true → len = 0) :
    Date.scan mem args fmt 0 percent len st = Alarm.scan mem args fmt percent st := by
  induction fmt generalizing percent len st with
  | nil => rfl
  | cons c fmt ih =>
      rw [Date.scan, Alarm.scan]
      rw [NoWidth] at hfmt
      by_cases hzero : c = 0
      · rw [if_pos hzero, if_pos hzero]
      · rw [if_neg hzero] at hfmt
        rw [if_neg hzero, if_neg hzero]
        cases percent with
        | true =>
            obtain ⟨hdigit, hrest⟩ := hfmt
            obtain rfl := hlen rfl
            have hprintint : (Date.printint · · · 0) = Alarm.printint :=
              funext₃ printint_zero
            rw [if_pos rfl, if_pos rfl, if_neg hdigit, hprintint]
            congr 1
            funext st
            exact ih hrest nofun
        | false =>
            rw [if_neg Bool.false_ne_true] at hfmt ⊢
            rw [if_neg Bool.false_ne_true]
            by_cases hpercent : c = '%'.toUInt8
            · rw [if_pos hpercent, if_pos hpercent]
              rw [decide_eq_true hpercent] at hfmt
              exact ih hfmt fun _ => rfl
            · rw [if_neg hpercent, if_neg hpercent]
              rw [decide_eq_false hpercent] at hfmt
              exact ih hfmt nofun

/-- The extended `printf` writes the same bytes, takes the same arguments and stops in the same
way. -/
theorem printf_conservative (mem : Memory) (args : Args) (len : Word) (fmt : List Byte)
    (hfmt : NoWidth fmt false) :
    Date.printf mem args len fmt = Alarm.printf mem args fmt :=
  scan_eq mem args hfmt nofun

/-- A number, an unknown conversion, `%%` and a `%` at the end. -/
theorem printf_conservative_mixed :
    Date.printf (fun _ => 0) (fun _ => -5) 7 "%d0%y%%%".toUTF8.toList
        = Alarm.printf (fun _ => 0) (fun _ => -5) "%d0%y%%%".toUTF8.toList
      ∧ Alarm.printf (fun _ => 0) (fun _ => -5) "%d0%y%%%".toUTF8.toList
        = .ok ⟨"-50%y%".toUTF8.toList, 1⟩ :=
  ⟨printf_conservative _ _ 7 _ (by decide +kernel), by decide +kernel⟩

end Acos.Printf
