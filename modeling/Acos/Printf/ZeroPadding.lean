import Acos.Printf.Conservative

/-!
# Numbers filled up with zeros

What a format means is told by its directives: characters and conversions, the latter with the
width after `%0` as a number of any size. The loop of the date tree performs them one after the
other, with the width as an `int`. It is right about a number as long as the width fits the buffer
of `printint`; beyond that it stores outside of the buffer or, where the width does not fit an
`int`, fills up too little.
-/

namespace Acos.Printf

open CString

/-! ### Directives -/

inductive Directive where
  | char (c : Byte)
  /-- `%c`, or `%0Nc` with the width `N`. -/
  | conversion (width : Option Nat) (c : Byte)

/-- Where a character of the format stands. -/
inductive Place where
  | text
  | percent
  | width (n : Nat)

def directives : List Byte → Place → List Directive
  | [], _ => []
  | c :: fmt, place =>
      if c = 0 then []
      else match place with
        | .text =>
            if c = '%'.toUInt8 then directives fmt .percent else .char c :: directives fmt .text
        | .percent =>
            if c = '0'.toUInt8 then directives fmt (.width 0)
            else .conversion none c :: directives fmt .text
        | .width n =>
            if isdigit c then directives fmt (.width (10 * n + (c.toNat - 48)))
            else .conversion (some n) c :: directives fmt .text

section Perform

variable (mem : Memory) (args : Args)

def perform (st : State) : Directive → Result
  | .char c => .ok (st.putc c)
  | .conversion width c =>
      convert mem args (Date.printint · · · (BitVec.ofNat 32 (width.getD 0))) c st

def performAll (directives : List Directive) (st : State) : Result :=
  directives.foldlM (perform mem args) st

end Perform

section Scan

variable {mem : Memory} {args : Args}

theorem ofNat_digit {c : Byte} (hdigit : isdigit c = true) (n : Nat) :
    BitVec.ofNat 32 n * 10 + BitVec.ofNat 32 c.toNat - 48
      = BitVec.ofNat 32 (10 * n + (c.toNat - 48)) := by
  have hlow : 48 ≤ c.toNat := by
    simp only [isdigit, UInt8.le_iff_toNat_le, decide_eq_true_eq] at hdigit
    exact hdigit.1
  have hsplit : c.toNat = (c.toNat - 48) + 48 := by omega
  calc
    BitVec.ofNat 32 n * 10 + BitVec.ofNat 32 c.toNat - 48
        = BitVec.ofNat 32 (n * 10 + (c.toNat - 48)) + 48 - 48 := by
          rw [hsplit, BitVec.ofNat_add, ← BitVec.add_assoc, ← hsplit, BitVec.ofNat_add,
            BitVec.ofNat_mul]
          rfl
    _ = BitVec.ofNat 32 (10 * n + (c.toNat - 48)) := by
          rw [BitVec.add_sub_cancel, Nat.mul_comm]

/-- `readint` reads the whole width, and the loop jumps behind it. -/
theorem readint_spec (fmt : List Byte) (n : Nat) :
    ∃ m, (readint fmt (.ofNat 32 n)).2 = .ofNat 32 m
      ∧ directives fmt (.width n)
        = directives (fmt.drop (readint fmt (.ofNat 32 n)).1) (.width m)
      ∧ ∀ c ∈ (fmt.drop (readint fmt (.ofNat 32 n)).1).head?, isdigit c = false := by
  induction fmt generalizing n with
  | nil => exact ⟨n, rfl, rfl, nofun⟩
  | cons c fmt ih =>
      by_cases hdigit : isdigit c = true
      · obtain ⟨m, hm, hdirectives, hhead⟩ := ih (10 * n + (c.toNat - 48))
        rw [readint, if_pos hdigit, ofNat_digit hdigit]
        refine ⟨m, hm, ?_, hhead⟩
        rw [directives, if_neg, if_pos hdigit, hdirectives]
        · rfl
        · rintro rfl
          exact absurd hdigit (by decide)
      · rw [readint, if_neg hdigit]
        refine ⟨n, rfl, rfl, ?_⟩
        rintro d hd
        obtain rfl := Option.some.inj hd
        exact Bool.eq_false_iff.mpr hdigit

theorem scan_skip {fmt : List Byte} {percent : Bool} {len : Word} {st : State} (skip : Nat) :
    Date.scan mem args fmt skip percent len st
      = Date.scan mem args (fmt.drop skip) 0 percent len st := by
  induction skip generalizing fmt with
  | zero => rfl
  | succ skip ih =>
      cases fmt with
      | nil => rfl
      | cons c fmt =>
          rw [Date.scan, ih]
          rfl

/-- The rest of the format is performed as its directives say. -/
def Follows (mem : Memory) (args : Args) (fmt : List Byte) : Prop :=
  ∀ len st, Date.scan mem args fmt 0 false len st = performAll mem args (directives fmt .text) st

theorem scan_conversion {c : Byte} {fmt : List Byte} {st : State} (width : Option Nat)
    (hend : c ≠ 0) (hdigit : c ≠ '0'.toUInt8) (hrest : Follows mem args fmt) :
    Date.scan mem args (c :: fmt) 0 true (.ofNat 32 (width.getD 0)) st
      = performAll mem args (.conversion width c :: directives fmt .text) st := by
  rw [Date.scan, if_neg hend, if_pos rfl, if_neg hdigit, performAll, List.foldlM_cons]
  exact congrArg _ (funext fun st => hrest _ st)

theorem scan_width {fmt : List Byte} {st : State} (n : Nat)
    (hhead : ∀ c ∈ fmt.head?, isdigit c = false) (hrest : Follows mem args fmt.tail) :
    Date.scan mem args fmt 0 true (.ofNat 32 n) st
      = performAll mem args (directives fmt (.width n)) st := by
  cases fmt with
  | nil => rfl
  | cons c fmt =>
      have hdigit := hhead c rfl
      by_cases hend : c = 0
      · rw [Date.scan, directives, if_pos hend, if_pos hend]
        rfl
      · have hne : c ≠ '0'.toUInt8 := by
          rintro rfl
          exact absurd hdigit (by decide)
        rw [directives, if_neg hend, if_neg (by rw [hdigit]; decide)]
        exact scan_conversion (some n) hend hne hrest

theorem scan_percent {fmt : List Byte} {st : State}
    (hrest : ∀ k, 0 < k → Follows mem args (fmt.drop k)) :
    Date.scan mem args fmt 0 true 0 st = performAll mem args (directives fmt .percent) st := by
  cases fmt with
  | nil => rfl
  | cons c fmt =>
      by_cases hend : c = 0
      · rw [Date.scan, directives, if_pos hend, if_pos hend]
        rfl
      · rw [directives, if_neg hend]
        by_cases hdigit : c = '0'.toUInt8
        · obtain ⟨m, hm, hdirectives, hhead⟩ := readint_spec fmt 0
          rw [Date.scan, if_neg hend, if_pos rfl, if_pos hdigit]
          change Date.scan mem args fmt (readint fmt (.ofNat 32 0)).1 true
            (readint fmt (.ofNat 32 0)).2 st = _
          rw [scan_skip, hm, scan_width m hhead]
          · rw [if_pos hdigit, hdirectives]
          · have hlater := hrest ((readint fmt (.ofNat 32 0)).1 + 2) (by omega)
            rwa [List.drop_succ_cons, ← List.tail_drop] at hlater
        · rw [if_neg hdigit]
          exact scan_conversion none hend hdigit (hrest 1 (by decide))

theorem follows (mem : Memory) (args : Args) (fmt : List Byte) : Follows mem args fmt := by
  -- on the length, since a conversion takes several characters at once
  induction hlength : fmt.length using Nat.strong_induction_on generalizing fmt with
  | _ n ih =>
      intro len st
      cases fmt with
      | nil => rfl
      | cons c fmt =>
          have hrest : ∀ k, Follows mem args (fmt.drop k) := by
            intro k
            refine ih _ ?_ (fmt.drop k) rfl
            rw [← hlength, List.length_drop, List.length_cons]
            omega
          rw [Date.scan, directives]
          by_cases hend : c = 0
          · rw [if_pos hend, if_pos hend]
            rfl
          · rw [if_neg hend, if_neg hend, if_neg Bool.false_ne_true]
            by_cases hpercent : c = '%'.toUInt8
            · rw [if_pos hpercent]
              change Date.scan mem args fmt 0 true 0 st
                = performAll mem args (if c = '%'.toUInt8 then _ else _) st
              rw [if_pos hpercent]
              exact scan_percent fun k _ => hrest k
            · rw [if_neg hpercent]
              change Date.scan mem args fmt 0 false len (st.putc c)
                = performAll mem args (if c = '%'.toUInt8 then _ else _) st
              rw [if_neg hpercent]
              exact hrest 0 len (st.putc c)

end Scan

/-! ### Numbers -/

section Numbers

variable {base room x : Nat} {buf : List Byte}

theorem digits_getD {d : Nat} (hd : d < 16) : digits.getD d 0 = digitChar d := by
  have hall : ∀ d < 16, digits.getD d 0 = digitChar d := by decide +kernel
  exact hall d hd

theorem putDigits_eq (hbase : 1 < base) (hbase' : base ≤ 16)
    (hroom : (numeral base x).length ≤ room) :
    putDigits base room x buf = .ok (numeral base x ++ buf) := by
  induction room generalizing x buf with
  | zero =>
      rw [numeral_eq hbase, List.length_append] at hroom
      exact absurd hroom (by simp)
  | succ room ih =>
      have hdigit : digits.getD (x % base) 0 = digitChar (x % base) :=
        digits_getD ((Nat.mod_lt x (by omega)).trans_le hbase')
      rw [putDigits, hdigit]
      rw [numeral_eq hbase] at hroom ⊢
      by_cases hquotient : x / base = 0
      · rw [if_pos hquotient, if_neg (not_not.mpr hquotient)]
        rfl
      · rw [if_neg hquotient] at hroom ⊢
        rw [if_pos hquotient, ih]
        · rw [List.append_assoc]
          rfl
        · rw [List.length_append, List.length_singleton] at hroom
          exact Nat.le_of_succ_le_succ hroom

theorem putZeros_eq {limit : Int} (hroom : buf.length + room = bufSize) :
    putZeros limit room buf
      = if limit.toNat ≤ bufSize
        then .ok (List.replicate (limit.toNat - buf.length) '0'.toUInt8 ++ buf)
        else .error .outside := by
  induction room generalizing buf with
  | zero =>
      rw [putZeros]
      by_cases hlimit : (buf.length : Int) < limit
      · rw [if_pos hlimit, if_neg (by omega)]
      · rw [if_neg hlimit, if_pos (by omega), Nat.sub_eq_zero_of_le (by omega)]
        rfl
  | succ room ih =>
      rw [putZeros]
      by_cases hlimit : (buf.length : Int) < limit
      · have hzeros : limit.toNat - buf.length = limit.toNat - (buf.length + 1) + 1 := by omega
        rw [if_pos hlimit, ih (by rw [List.length_cons]; omega), List.length_cons, hzeros,
          List.replicate_succ', List.append_assoc]
        rfl
      · rw [if_neg hlimit, if_pos (by omega), Nat.sub_eq_zero_of_le (by omega)]
        rfl

theorem length_numeral_word (v : Word) (hbase : base = 10 ∨ base = 16) :
    (numeral base v.toNat).length ≤ 10 := by
  have hv := v.isLt
  rcases hbase with rfl | rfl
  · exact length_numeral_le (by decide) (by decide) (by omega)
  · exact length_numeral_le (by decide) (by decide) (by omega)

def minus (neg : Bool) : List Byte := if neg then ['-'.toUInt8] else []

theorem putSign_eq (neg : Bool) (hbuf : buf.length ≤ bufSize) :
    putSign neg buf
      = if (minus neg ++ buf).length ≤ bufSize then .ok (minus neg ++ buf)
        else .error .outside := by
  cases neg with
  | false => exact (if_pos hbuf).symm
  | true => rfl

def fillTo (neg : Bool) (len : Word) : Nat := (len - if neg then 1 else 0).toInt.toNat

/-- What `printint` would write with a buffer that is large enough. -/
def filled (xx : Word) (base : Nat) (sgn : Bool) (len : Word) : List Byte :=
  let text := numeral base (magnitude xx sgn).toNat
  minus (isNeg xx sgn)
    ++ (List.replicate (fillTo (isNeg xx sgn) len - text.length) '0'.toUInt8 ++ text)

theorem printint_eq (hbase : base = 10 ∨ base = 16) (xx : Word) (sgn : Bool) (len : Word) :
    Date.printint xx base sgn len
      = if (filled xx base sgn len).length ≤ bufSize then .ok (filled xx base sgn len)
        else .error .outside := by
  have hlength := length_numeral_word (magnitude xx sgn) hbase
  have hsize : bufSize = 16 := rfl
  have hbounds : 1 < base ∧ base ≤ 16 := by omega
  rw [Date.printint, putDigits_eq hbounds.1 hbounds.2 (by omega), List.append_nil]
  change (putZeros _ _ (numeral base (magnitude xx sgn).toNat) >>= _) = _
  rw [putZeros_eq (by omega), filled, ← fillTo]
  generalize numeral base (magnitude xx sgn).toNat = text at *
  generalize fillTo (isNeg xx sgn) len = limit
  by_cases hlimit : limit ≤ bufSize
  · rw [if_pos hlimit]
    apply putSign_eq
    rw [List.length_append, List.length_replicate]
    omega
  · rw [if_neg hlimit, if_neg]
    · rfl
    · rw [List.length_append, List.length_append, List.length_replicate]
      omega

/-! ### What the standard says -/

def zeroFilled (width : Nat) (sign text : List Byte) : List Byte :=
  sign ++ (List.replicate (width - (sign.length + text.length)) '0'.toUInt8 ++ text)

def standardInt (width : Nat) (v : Word) : List Byte :=
  zeroFilled width (minus (v.toInt < 0)) (numeral 10 v.toInt.natAbs)

def standardHex (width : Nat) (v : Word) : List Byte := zeroFilled width [] (numeral 16 v.toNat)

theorem length_zeroFilled (width : Nat) (sign text : List Byte) :
    (zeroFilled width sign text).length = max width (sign.length + text.length) := by
  rw [zeroFilled, List.length_append, List.length_append, List.length_replicate]
  omega

theorem width_le_length_zeroFilled (width : Nat) (sign text : List Byte) :
    width ≤ (zeroFilled width sign text).length := by
  rw [length_zeroFilled]
  exact Nat.le_max_left _ _

theorem isNeg_eq (v : Word) : isNeg v true = decide (v.toInt < 0) := by
  rw [isNeg, Bool.true_and, BitVec.msb_eq_toInt]

theorem magnitude_eq (v : Word) : (magnitude v true).toNat = v.toInt.natAbs := by
  have hv := v.isLt
  have htoInt := BitVec.toInt_eq_toNat_cond v
  rw [magnitude, isNeg_eq]
  by_cases hneg : v.toInt < 0
  · rw [if_pos (decide_eq_true hneg), BitVec.toNat_neg]
    split at htoInt <;> omega
  · rw [if_neg (by simpa using hneg)]
    split at htoInt <;> omega

theorem fillTo_ofNat {n : Nat} (hn : n ≤ bufSize) (neg : Bool) :
    fillTo neg (.ofNat 32 n) = n - (minus neg).length := by
  have hall : ∀ n ≤ bufSize, fillTo neg (.ofNat 32 n) = n - (minus neg).length := by
    cases neg <;> decide
  exact hall n hn

theorem filled_int {n : Nat} (hn : n ≤ bufSize) (v : Word) :
    filled v 10 true (.ofNat 32 n) = standardInt n v := by
  rw [filled, standardInt, zeroFilled, isNeg_eq, magnitude_eq, fillTo_ofNat hn, Nat.sub_sub]

theorem filled_hex (len v : Word) : filled v 16 false len = standardHex len.toInt.toNat v := by
  have hfill : fillTo false len = len.toInt.toNat := congrArg (·.toInt.toNat) (BitVec.sub_zero len)
  change [] ++ (List.replicate (fillTo false len - _) _ ++ _) = _
  rw [hfill, standardHex, zeroFilled, List.length_nil, Nat.zero_add]
  rfl

end Numbers

/-! ### Directives and their texts -/

section Texts

variable (mem : Memory) (args : Args)

/-- What a directive prints: for `%d` and `%x` what the standard says. It says nothing about a width
for `%p`, which is printed as it stands. -/
def Directive.text (arg : Word) : Directive → List Byte
  | .char c => [c]
  | .conversion width c =>
      if c = 'd'.toUInt8 then standardInt (width.getD 0) arg
      else if c = 'x'.toUInt8 then standardHex (width.getD 0) arg
      else if c = 'p'.toUInt8 then standardHex (BitVec.ofNat 32 (width.getD 0)).toInt.toNat arg
      else if c = 's'.toUInt8 then (string mem arg).getD []
      else if c = 'c'.toUInt8 then [UInt8.ofNat arg.toNat]
      else if c = '%'.toUInt8 then ['%'.toUInt8]
      else ['%'.toUInt8, c]

def Directive.takes : Directive → Nat
  | .char _ => 0
  | .conversion _ c =>
      if c = 'd'.toUInt8 ∨ c = 'x'.toUInt8 ∨ c = 'p'.toUInt8 ∨ c = 's'.toUInt8
        ∨ c = 'c'.toUInt8 then 1 else 0

def expected : List Directive → Nat → List Byte
  | [], _ => []
  | d :: rest, ap => d.text mem (args ap) ++ expected rest (ap + d.takes)

end Texts

/-- The width fits the buffer. For `%p` it is the `int` that counts. -/
def Directive.InBounds : Directive → Prop
  | .char _ => True
  | .conversion width c =>
      (c = 'd'.toUInt8 ∨ c = 'x'.toUInt8 → width.getD 0 ≤ bufSize)
        ∧ (c = 'p'.toUInt8 → (BitVec.ofNat 32 (width.getD 0)).toInt ≤ bufSize)

instance : (d : Directive) → Decidable d.InBounds
  | .char _ => inferInstanceAs (Decidable True)
  | .conversion _ _ => inferInstanceAs (Decidable (_ ∧ _))

/-! ### One directive -/

section Directives

variable {mem : Memory} {args : Args} {st : State}

theorem readString_some {s : Word} {n k : Nat} (hk : k < n) (hzero : mem (s + .ofNat 32 k) = 0) :
    ∃ text, readString mem s n = some text := by
  induction n generalizing s k with
  | zero => exact absurd hk (Nat.not_lt_zero k)
  | succ n ih =>
      rw [readString]
      by_cases hend : mem s = 0
      · exact ⟨[], if_pos hend⟩
      · rw [if_neg hend]
        cases k with
        | zero => exact absurd ((congrArg mem (BitVec.add_zero s)).symm.trans hzero) hend
        | succ k =>
            have hnext : s + .ofNat 32 (k + 1) = s + 1 + .ofNat 32 k := by
              rw [Nat.add_comm, BitVec.ofNat_add, ← BitVec.add_assoc]
              rfl
            rw [hnext] at hzero
            obtain ⟨text, htext⟩ := ih (Nat.lt_of_succ_lt_succ hk) hzero
            exact ⟨mem s :: text, by rw [htext]; rfl⟩

/-- A string ends, since there is a zero in the memory. -/
theorem string_some (hmem : ∃ a, mem a = 0) (s : Word) : ∃ text, string mem s = some text := by
  obtain ⟨a, ha⟩ := hmem
  rw [string]
  split
  · exact ⟨_, rfl⟩
  · refine readString_some (k := (a - s).toNat) (a - s).isLt ?_
    rwa [BitVec.ofNat_toNat, BitVec.setWidth_eq, BitVec.add_comm, BitVec.sub_add_cancel]

theorem printNumber_eq {base : Nat} (hbase : base = 10 ∨ base = 16) (xx : Word) (sgn : Bool)
    (len : Word) :
    printNumber st (Date.printint xx base sgn len)
      = if (filled xx base sgn len).length ≤ bufSize then .ok (st.print (filled xx base sgn len))
        else .error (.outside, st) := by
  rw [printint_eq hbase]
  split <;> rfl

/-- A directive is performed as it should be, or it stops the program or prints too little. -/
def Performed (mem : Memory) (args : Args) (st : State) (d : Directive) : Prop :=
  (d.InBounds ∧ perform mem args st d
      = .ok ⟨st.out ++ d.text mem (args st.ap), st.ap + d.takes⟩)
    ∨ ¬d.InBounds ∧ ((∃ stop, perform mem args st d = .error stop)
      ∨ ∃ short, perform mem args st d = .ok ⟨st.out ++ short, st.ap + d.takes⟩
        ∧ short.length < (d.text mem (args st.ap)).length)

/-- Numbers, whose text is the standard's as long as the width fits, and is longer than the buffer
otherwise. -/
theorem performed_number {d : Directive} {base : Nat} {sgn : Bool} {len : Word}
    (hbase : base = 10 ∨ base = 16)
    (hperform : perform mem args st d = printNumber st (Date.printint (args st.ap) base sgn len))
    (htakes : d.takes = 1)
    (hin : d.InBounds → filled (args st.ap) base sgn len = d.text mem (args st.ap)
      ∧ (d.text mem (args st.ap)).length ≤ bufSize)
    (hout : ¬d.InBounds → bufSize < (d.text mem (args st.ap)).length) :
    Performed mem args st d := by
  rw [Performed, hperform, printNumber_eq hbase, htakes]
  by_cases hbounds : d.InBounds
  · obtain ⟨htext, hlength⟩ := hin hbounds
    rw [htext, if_pos hlength]
    exact .inl ⟨hbounds, rfl⟩
  · refine .inr ⟨hbounds, ?_⟩
    by_cases hfits : (filled (args st.ap) base sgn len).length ≤ bufSize
    · rw [if_pos hfits]
      exact .inr ⟨_, rfl, hfits.trans_lt (hout hbounds)⟩
    · rw [if_neg hfits]
      exact .inl ⟨_, rfl⟩

theorem inBounds_int {width : Option Nat} :
    (Directive.conversion width 'd'.toUInt8).InBounds ↔ width.getD 0 ≤ bufSize :=
  ⟨fun h => h.1 (.inl rfl), fun h => ⟨fun _ => h, fun hp => absurd hp (by decide)⟩⟩

theorem inBounds_hex {width : Option Nat} :
    (Directive.conversion width 'x'.toUInt8).InBounds ↔ width.getD 0 ≤ bufSize :=
  ⟨fun h => h.1 (.inr rfl), fun h => ⟨fun _ => h, fun hp => absurd hp (by decide)⟩⟩

theorem inBounds_pointer {width : Option Nat} :
    (Directive.conversion width 'p'.toUInt8).InBounds
      ↔ (BitVec.ofNat 32 (width.getD 0)).toInt ≤ bufSize :=
  ⟨fun h => h.2 rfl, fun h => ⟨fun hd => absurd hd (by decide), fun _ => h⟩⟩

theorem length_standardInt_le {n : Nat} (hn : n ≤ bufSize) (v : Word) :
    (standardInt n v).length ≤ bufSize := by
  have hdigits : (numeral 10 (magnitude v true).toNat).length ≤ 10 :=
    length_numeral_word _ (.inl rfl)
  have hsign : (minus (v.toInt < 0)).length ≤ 1 := by
    cases decide (v.toInt < 0) <;> decide
  have hsize : bufSize = 16 := rfl
  rw [magnitude_eq] at hdigits
  rw [standardInt, length_zeroFilled]
  omega

theorem length_standardHex_le {n : Nat} (hn : n ≤ bufSize) (v : Word) :
    (standardHex n v).length ≤ bufSize := by
  have hdigits : (numeral 16 v.toNat).length ≤ 10 := length_numeral_word _ (.inr rfl)
  have hsize : bufSize = 16 := rfl
  rw [standardHex, length_zeroFilled, List.length_nil]
  omega

theorem toInt_width {n : Nat} (hn : n ≤ bufSize) : (BitVec.ofNat 32 n).toInt.toNat = n := by
  have hall : ∀ n ≤ bufSize, (BitVec.ofNat 32 n).toInt.toNat = n := by decide
  exact hall n hn

theorem performed_int (width : Option Nat) :
    Performed mem args st (.conversion width 'd'.toUInt8) := by
  refine performed_number (.inl rfl) rfl rfl ?_ ?_
  · intro hbounds
    rw [inBounds_int] at hbounds
    exact ⟨filled_int hbounds _, length_standardInt_le hbounds _⟩
  · intro hbounds
    rw [inBounds_int, not_le] at hbounds
    exact hbounds.trans_le (width_le_length_zeroFilled _ _ _)

theorem performed_hex (width : Option Nat) :
    Performed mem args st (.conversion width 'x'.toUInt8) := by
  refine performed_number (.inr rfl) rfl rfl ?_ ?_
  · intro hbounds
    rw [inBounds_hex] at hbounds
    rw [filled_hex, toInt_width hbounds]
    exact ⟨rfl, length_standardHex_le hbounds _⟩
  · intro hbounds
    rw [inBounds_hex, not_le] at hbounds
    exact hbounds.trans_le (width_le_length_zeroFilled _ _ _)

theorem performed_pointer (width : Option Nat) :
    Performed mem args st (.conversion width 'p'.toUInt8) := by
  refine performed_number (.inr rfl) rfl rfl ?_ ?_
  · intro hbounds
    rw [inBounds_pointer] at hbounds
    exact ⟨filled_hex _ _, length_standardHex_le (by omega) _⟩
  · intro hbounds
    rw [inBounds_pointer, not_le] at hbounds
    have hwidth : bufSize < (BitVec.ofNat 32 (width.getD 0)).toInt.toNat := by omega
    exact hwidth.trans_le (width_le_length_zeroFilled _ _ _)

theorem performed (hmem : ∃ a, mem a = 0) (args : Args) (st : State) (d : Directive) :
    Performed mem args st d := by
  cases d with
  | char c => exact .inl ⟨trivial, rfl⟩
  | conversion width c =>
      by_cases hd : c = 'd'.toUInt8
      · exact hd ▸ performed_int width
      by_cases hx : c = 'x'.toUInt8
      · exact hx ▸ performed_hex width
      by_cases hp : c = 'p'.toUInt8
      · exact hp ▸ performed_pointer width
      -- the others do not look at the width
      refine .inl ⟨⟨fun h => absurd h (not_or.mpr ⟨hd, hx⟩), fun h => absurd h hp⟩, ?_⟩
      simp only [perform, convert, Directive.text, Directive.takes, hd, hx, hp, or_self, if_false,
        false_or]
      by_cases hs : c = 's'.toUInt8
      · obtain ⟨text, htext⟩ := string_some hmem (args st.ap)
        simp [hs, htext, State.print]
      simp only [hs, if_false, false_or]
      by_cases hc : c = 'c'.toUInt8
      · rw [if_pos hc, if_pos hc, if_pos hc]
        rfl
      rw [if_neg hc, if_neg hc, if_neg hc]
      by_cases hpercent : c = '%'.toUInt8
      · rw [if_pos hpercent, if_pos hpercent, hpercent]
        rfl
      · rw [if_neg hpercent, if_neg hpercent, State.putc, State.putc, List.append_assoc]
        rfl

end Directives

/-! ### The whole format -/

section Run

variable {mem : Memory} {args : Args}

theorem performAll_ok (hmem : ∃ a, mem a = 0) {ds : List Directive} {st : State}
    (hds : ∀ d ∈ ds, d.InBounds) :
    performAll mem args ds st
      = .ok ⟨st.out ++ expected mem args ds st.ap, st.ap + (ds.map Directive.takes).sum⟩ := by
  induction ds generalizing st with
  | nil =>
      rw [expected, List.append_nil]
      rfl
  | cons d rest ih =>
      have hd := hds d List.mem_cons_self
      rcases performed hmem args st d with ⟨-, hperform⟩ | ⟨hnot, -⟩
      · rw [performAll, List.foldlM_cons, hperform]
        refine (ih fun d hmem => hds d (List.mem_cons_of_mem _ hmem)).trans ?_
        rw [expected, List.append_assoc, List.map_cons, List.sum_cons, Nat.add_assoc]
      · exact absurd hd hnot

/-- A directive that is out of bounds makes the output too short, if the program goes on at all. -/
theorem performAll_length (hmem : ∃ a, mem a = 0) {ds : List Directive} {st st' : State}
    (hrun : performAll mem args ds st = .ok st') :
    st'.out.length ≤ st.out.length + (expected mem args ds st.ap).length
      ∧ ((∃ d ∈ ds, ¬d.InBounds) →
        st'.out.length < st.out.length + (expected mem args ds st.ap).length) := by
  induction ds generalizing st with
  | nil =>
      obtain rfl := Except.ok.inj hrun
      exact ⟨Nat.le_add_right _ _, fun ⟨d, hd, _⟩ => absurd hd List.not_mem_nil⟩
  | cons d rest ih =>
      rw [performAll, List.foldlM_cons] at hrun
      rw [expected, List.length_append]
      rcases performed hmem args st d with
        ⟨hbounds, hperform⟩ | ⟨-, ⟨stop, hperform⟩ | ⟨short, hperform, hshort⟩⟩
      · rw [hperform] at hrun
        obtain ⟨hle, hlt⟩ := ih hrun
        simp only [List.length_append] at hle hlt
        refine ⟨by omega, ?_⟩
        rintro ⟨d', hd', hnot⟩
        rcases List.mem_cons.mp hd' with rfl | hrest
        · exact absurd hbounds hnot
        · have hshorter := hlt ⟨d', hrest, hnot⟩
          omega
      · rw [hperform] at hrun
        exact absurd hrun (by rintro ⟨⟩)
      · rw [hperform] at hrun
        obtain ⟨hle, -⟩ := ih hrun
        simp only [List.length_append] at hle
        have hlt : st'.out.length < st.out.length + ((d.text mem (args st.ap)).length
            + (expected mem args rest (st.ap + d.takes)).length) := by omega
        exact ⟨hlt.le, fun _ => hlt⟩

end Run

/-- `printf` prints what the format says and stores nothing outside of its buffer exactly if every
width of a number fits the buffer. -/
theorem printf_zeroPadding_iff (mem : Memory) (args : Args) (len : Word) (fmt : List Byte)
    (hmem : ∃ a, mem a = 0) :
    Date.printf mem args len fmt = .ok ⟨expected mem args (directives fmt .text) 0,
        ((directives fmt .text).map Directive.takes).sum⟩
      ↔ ∀ d ∈ directives fmt .text, d.InBounds := by
  rw [Date.printf, follows mem args fmt len]
  constructor
  · intro hrun
    by_contra hnot
    push Not at hnot
    have hlt := (performAll_length hmem hrun).2 hnot
    rw [List.length_nil, Nat.zero_add] at hlt
    exact absurd hlt (Nat.lt_irrefl _)
  · intro hbounds
    rw [performAll_ok hmem hbounds, List.nil_append, Nat.zero_add]

theorem printf_zeroPadding_iff_date :
    Date.printf (fun _ => 0) (fun _ => -7) 1 "%04d-%02x".toUTF8.toList
      = .ok ⟨"-007-FFFFFFF9".toUTF8.toList, 2⟩ :=
  ((printf_zeroPadding_iff _ _ 1 _ ⟨0, rfl⟩).mpr (by decide +kernel)).trans (by decide +kernel)

/-- With a width of 17 the last zero is stored behind the buffer. -/
theorem printf_overruns :
    Date.printf (fun _ => 0) (fun _ => 1) 0 "%017d".toUTF8.toList = .error (.outside, ⟨[], 0⟩) := by
  decide +kernel

end Acos.Printf
