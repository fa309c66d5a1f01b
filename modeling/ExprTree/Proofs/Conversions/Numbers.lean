import ExprTree.Proofs.Operands
import ExprTree.Proofs.Words

set_option autoImplicit false

/-! # Conversions between integers and characters

The values of the eight integer types and of the character type stand for whole numbers
(`Integral.number`). A conversion between two of these types goes through that number. To an integer
type it keeps the number modulo `2 ^ width`, or, if it is checked, fails where the number is out of
range (`eval_integer_conversion`). To the character type only the codes of the first plane, below
`0x10000`, are kept; so a conversion to a wider type and back returns the value, except for the
characters beyond that plane (`eval_widening_round_trip`).
-/

namespace ExprTree

/-! ## Whole numbers -/

/-- The types whose values stand for whole numbers. -/
inductive Integral
  | int (t : IntType)
  | char
deriving DecidableEq

namespace Integral

/-- The static type. -/
def ty : Integral → Ty
  | .int t => .int t
  | .char => .char

/-- What the values of the type hold. -/
abbrev Elem : Integral → Type
  | .int t => Word t
  | .char => Char

/-- The value that holds `a`. -/
def value : (s : Integral) → s.Elem → Value
  | .int t, w => .int t w
  | .char, c => .char c

/-- The number that `a` stands for; a character stands for its code point. -/
def number : (s : Integral) → s.Elem → Int
  | .int _, w => w.toInt
  | .char, c => c.toNat

/-- The type as the target of a conversion of numbers. -/
def numeric : Integral → Numeric
  | .int t => .int t
  | .char => .char

/-- The conversion between two of the types. -/
def conversion (checked : Bool) (s t : Integral) : Conversion :=
  if s = t then .identity else .numeric t.numeric checked

theorem exists_value {schema : Schema} {s : Integral} {v : Value}
    (h : v.conformsTo schema s.ty = true) : ∃ a, v = s.value a := by
  cases s with
  | int t => exact Value.eq_int h
  | char => exact Value.eq_char h

/-- A value is determined by its number. -/
theorem number_injective {s : Integral} {a b : s.Elem} (h : s.number a = s.number b) : a = b := by
  cases s with
  | int t =>
      have hword : Word.ofInt t (Word.toInt a) = Word.ofInt t (Word.toInt b) := congrArg _ h
      rwa [Word.ofInt_toInt, Word.ofInt_toInt] at hword
  | char => exact Char.toNat_inj.mp (Int.ofNat_inj.mp h)

theorem ty_inj {s t : Integral} : s.ty = t.ty ↔ s = t := by
  cases s <;> cases t <;> simp [ty]

theorem select?_eq_conversion (schema : Schema) (checked : Bool) (s t : Integral) :
    Conversion.select? schema checked s.ty t.ty = some (conversion checked s t) := by
  have hplain : Conversion.select? schema checked s.ty t.ty
      = Conversion.plain? schema checked s.ty t.ty := by
    cases s <;> cases t <;> rfl
  rw [hplain]
  unfold Conversion.plain? conversion
  by_cases h : s = t
  · rw [if_pos (ty_inj.mpr h), if_pos h]
  · rw [if_neg (mt ty_inj.mp h), if_neg h]
    cases s <;> cases t <;> rfl

theorem apply_conversion (schema : Schema) (checked : Bool) {s t : Integral} (h : s ≠ t)
    (a : s.Elem) :
    (conversion checked s t).apply schema (s.value a)
      = t.numeric.convert checked (.int (s.number a)) := by
  rw [conversion, if_neg h]
  cases s <;> rfl

theorem apply_conversion_self (schema : Schema) (checked : Bool) {s : Integral} (a : s.Elem) :
    (conversion checked s s).apply schema (s.value a) = .ok (s.value a) := by
  rw [conversion, if_pos rfl]
  rfl

end Integral

/-! ## To an integer type -/

/-- The outcome of a conversion of `n` to the integer type. -/
def IntType.converted (t : IntType) (checked : Bool) (n : Int) : Except RuntimeError Value :=
  if checked = true ∧ ¬ t.InRange n then .error .overflow else .ok (.ofInt t n)

theorem IntType.converted_inRange {t : IntType} {n : Int} (h : t.InRange n) (checked : Bool) :
    t.converted checked n = .ok (.ofInt t n) :=
  if_neg fun hn => hn.2 h

theorem Numeric.convert_int (t : IntType) (checked : Bool) (n : Int) :
    (Numeric.int t).convert checked (.int n) = t.converted checked n := by
  cases checked with
  | false => rfl
  | true =>
      have hword : (Number.int n).toWord? t = Word.ofInt? t n := rfl
      rw [Numeric.convert, hword, Word.ofInt?, IntType.converted]
      by_cases h : t.InRange n <;> simp [h, Value.ofInt]

/-- The shortcut for equal types makes no difference. -/
theorem Integral.apply_conversion_int (schema : Schema) (checked : Bool) (s : Integral)
    (t : IntType) (a : s.Elem) :
    (s.conversion checked (.int t)).apply schema (s.value a)
      = t.converted checked (s.number a) := by
  by_cases h : s = .int t
  · subst h
    rw [apply_conversion_self, number, IntType.converted_inRange (Word.toInt_inRange a),
      Value.ofInt, Word.ofInt_toInt]
    rfl
  · rw [apply_conversion schema checked h]
    exact Numeric.convert_int t checked _

/-- Reducing to a width and then to a smaller one is reducing to the smaller one. -/
theorem Word.ofInt_toInt_ofInt {t u : IntType} (h : u.width ≤ t.width) (n : Int) :
    ofInt u (ofInt t n).toInt = ofInt u n := by
  have hmod : (ofInt t n).toInt ≡ n [ZMOD 2 ^ t.width] := toInt_modEq_iff.mpr rfl
  rw [ofInt_eq_ofInt]
  exact hmod.of_dvd (pow_dvd_pow 2 h)

namespace Node.Gives

variable {schema : Schema} {args : List Value} {ρ : Nat → Value} {used : List Parameter}
  {heap : Heap} {x : Tree} {s : Integral} {a : s.Elem}

theorem convertIntegral (hx : x.Gives schema args ρ used heap (.ok (s.value a)))
    (hty : x.ty = s.ty) (checked : Bool) (id : Nat) (t : Integral) :
    (Node.convertBy checked id x t.ty).Gives schema args ρ used heap
      (.ofExcept ((s.conversion checked t).apply schema (s.value a))) := by
  have hselect := Integral.select?_eq_conversion schema checked s t
  rw [← hty] at hselect
  exact hx.convertBy checked id hselect

theorem convertInt (hx : x.Gives schema args ρ used heap (.ok (s.value a))) (hty : x.ty = s.ty)
    (checked : Bool) (id : Nat) (t : IntType) :
    (Node.convertBy checked id x (.int t)).Gives schema args ρ used heap
      (.ofExcept (t.converted checked (s.number a))) := by
  rw [← Integral.apply_conversion_int schema]
  exact hx.convertIntegral hty checked id (.int t)

end Node.Gives

section Evaluations

variable {e : Environment} {params : List Parameter} {args : List Value} {x : Operand}
  {s : Integral}

/-- An operand of such a type. -/
theorem Operand.Given.gives_integral (h : Operand.Given e.schema params args [x])
    (hx : x.ty = s.ty) (heap : Heap) :
    ∃ a, x.value (argumentOf params args) = s.value a ∧
      x.node.Gives e.schema args (argumentOf params args) ([x].flatMap Operand.parameters) heap
        (.ok (s.value a)) := by
  have hmem : x ∈ [x] := List.mem_singleton_self x
  have hconforms := h.conforms hmem
  rw [hx] at hconforms
  obtain ⟨a, ha⟩ := Integral.exists_value hconforms
  exact ⟨a, ha, ha ▸ Operand.gives hmem⟩

/-- **Conversions to an integer type are exact.** Converting gives the one word congruent to the
number of the value modulo `2 ^ t.width`. Converting with a check succeeds exactly if the number is
in the range of `t`; then both conversions give the word that stands for the number, and otherwise
the checked one overflows. Converting further, to an integer type that is not wider, gives what the
direct conversion gives. -/
theorem eval_integer_conversion (h : Operand.Given e.schema params args [x]) (hx : x.ty = s.ty)
    (t : IntType) (i j k l : Nat) (name : Option String) (w : World) :
    let eval (body : Tree) := e.eval (.ofLambda i (.mk j name params body)) args w
    let converted := eval (.convert k x.node (.int t))
    let checked := eval (.convertChecked k x.node (.int t))
    ∃ a, x.value (argumentOf params args) = s.value a ∧
      (∃ word : Word t, converted = (.ok (.int t word), w) ∧
        ∀ m : Word t, m.toInt ≡ s.number a [ZMOD 2 ^ t.width] ↔ m = word) ∧
      ((∃ v w', checked = (.ok v, w')) ↔ t.InRange (s.number a)) ∧
      (t.InRange (s.number a) → ∃ word : Word t, word.toInt = s.number a ∧
        checked = (.ok (.int t word), w) ∧ converted = (.ok (.int t word), w)) ∧
      (¬ t.InRange (s.number a) → checked = (.error (.raised (.runtime .overflow)), w)) ∧
      ∀ u : IntType, u.width ≤ t.width →
        eval (.convert l (.convert k x.node (.int t)) (.int u))
          = eval (.convert l x.node (.int u)) := by
  intro eval converted checked
  obtain ⟨a, ha, hoperand⟩ := h.gives_integral hx w.heap
  have hty : x.node.ty = s.ty := x.ty_node.trans hx
  have hconverted : converted = (.ok (.ofInt t (s.number a)), w) :=
    h.supplies.eval (hoperand.convertInt hty false k t) i j name
  have hchecked : checked = (Outcome.report (.ofExcept (t.converted true (s.number a))), w) :=
    h.supplies.eval (hoperand.convertInt hty true k t) i j name
  refine ⟨a, ha, ⟨_, hconverted, fun _ => Word.toInt_modEq_iff⟩, ?_, ?_, ?_, ?_⟩
  · constructor
    · rintro ⟨v, w', hv⟩
      by_contra hrange
      rw [hchecked, IntType.converted, if_pos ⟨rfl, hrange⟩] at hv
      cases hv
    · intro hrange
      rw [hchecked, IntType.converted_inRange hrange]
      exact ⟨_, _, rfl⟩
  · intro hrange
    rw [hchecked, IntType.converted_inRange hrange, hconverted]
    exact ⟨_, Word.toInt_ofInt hrange, rfl, rfl⟩
  · intro hrange
    rw [hchecked, IntType.converted, if_pos ⟨rfl, hrange⟩]
    rfl
  · intro u hu
    -- the inner conversion is an operand of type `t`
    have hinner : (Node.convert k x.node (.int t)).Gives e.schema args (argumentOf params args)
        ([x].flatMap Operand.parameters) w.heap
          (.ok ((Integral.int t).value (.ofInt t (s.number a)))) :=
      hoperand.convertInt hty false k t
    have hlong : eval (.convert l (.convert k x.node (.int t)) (.int u))
        = (.ok (.ofInt u (Word.ofInt t (s.number a)).toInt), w) :=
      h.supplies.eval (hinner.convertInt rfl false l u) i j name
    have hshort : eval (.convert l x.node (.int u)) = (.ok (.ofInt u (s.number a)), w) :=
      h.supplies.eval (hoperand.convertInt hty false l u) i j name
    rw [hlong, hshort, Value.ofInt, Value.ofInt, Word.ofInt_toInt_ofInt hu]

/-- The `i16` number 300 is 44 as an `u8`, where it overflows with a check; it does not matter for
the `i8` whether it was an `u8` before. The character `é` has the code 233. -/
theorem eval_integer_conversion_narrowing :
    let e : Environment := ⟨.empty, fun _ _ heap _ => .done (.ok .unit) heap, 1000, 0⟩
    let x : Operand := .parameter 1 ⟨0, "x", .int .i16⟩
    let c : Operand := .parameter 1 ⟨0, "c", .char⟩
    let eval (body : Tree) :=
      e.eval (.ofLambda 3 (.mk 2 none [⟨0, "x", .int .i16⟩] body)) [.ofInt .i16 300] {}
    eval (.convert 4 x.node (.int .u8)) = (.ok (.ofInt .u8 44), {}) ∧
      eval (.convertChecked 4 x.node (.int .u8)) = (.error (.raised (.runtime .overflow)), {}) ∧
      eval (.convert 5 (.convert 4 x.node (.int .u8)) (.int .i8))
        = eval (.convert 5 x.node (.int .i8)) ∧
      e.eval (.ofLambda 3 (.mk 2 none [⟨0, "c", .char⟩] (.convertChecked 4 c.node (.int .u8))))
        [.char 'é'] {} = (.ok (.ofInt .u8 233), {}) := by
  intro e x c eval
  have hx : x.ty = (Integral.int .i16).ty := rfl
  have hc : c.ty = Integral.char.ty := rfl
  obtain ⟨a, ha, ⟨word, hconvert, hunique⟩, -, -, hoverflow, hshort⟩ :=
    eval_integer_conversion (e := e) (Operand.given_parameter (v := .ofInt .i16 300) rfl 1) hx .u8
      3 2 4 5 none {}
  obtain ⟨b, hb, -, -, hexact, -⟩ :=
    eval_integer_conversion (e := e) (Operand.given_parameter (v := .char 'é') rfl 1) hc .u8
      3 2 4 5 none {}
  obtain rfl : .ofInt .i16 300 = a := by
    cases ha
    rfl
  obtain rfl : 'é' = b := by
    cases hb
    rfl
  obtain rfl : .ofInt .u8 44 = word := (hunique (.ofInt .u8 44)).mp (by decide)
  obtain ⟨word, hword, hchecked, -⟩ := hexact (by decide)
  obtain rfl : .ofInt .u8 233 = word := by
    rw [← word.ofInt_toInt, hword]
    rfl
  exact ⟨hconvert, hoverflow (by decide), hshort .i8 (by decide), hchecked⟩

end Evaluations

/-! ## To the character type -/

namespace Number

theorem basicChar?_eq_some {code : Nat} (hlt : code < 0x10000) (hvalid : code.isValidChar) :
    basicChar? code = some (Char.ofNat code) := by
  simp [basicChar?, hlt, hvalid]

theorem basicChar?_eq_none {code : Nat} (h : 0x10000 ≤ code) : basicChar? code = none := by
  simp [basicChar?, Nat.not_lt.mpr h]

/-- A code of the first plane is kept. -/
theorem toChar_toNat {c : Char} (h : c.toNat < 0x10000) : (int c.toNat).toChar = c := by
  have hcode : ((int c.toNat).code % 0x10000).toNat = c.toNat := by
    show ((c.toNat : Int) % 0x10000).toNat = c.toNat
    omega
  rw [toChar, hcode, basicChar?_eq_some h c.valid, Option.getD_some, Char.ofNat_toNat]

theorem toChar?_toNat {c : Char} (h : c.toNat < 0x10000) : (int c.toNat).toChar? = some c := by
  have hsign : ¬ (int c.toNat).code < 0 := Int.not_lt.mpr (Int.natCast_nonneg _)
  have hcode : (int c.toNat).code.toNat = c.toNat := rfl
  rw [toChar?, if_neg hsign, hcode, basicChar?_eq_some h c.valid, Char.ofNat_toNat]

/-- There is no other code to convert to. -/
theorem toNat_toChar_lt (n : Number) : n.toChar.toNat < 0x10000 := by
  rw [toChar]
  generalize (n.code % 0x10000).toNat = code
  rw [basicChar?]
  split
  case isTrue h =>
    obtain ⟨hlt, hvalid⟩ : code < 0x10000 ∧ code.isValidChar := by simpa using h
    rw [Option.getD_some, Char.ofNat, dif_pos hvalid]
    exact hlt
  case isFalse => decide

theorem toChar?_eq_none {n : Int} (h : 0x10000 ≤ n) : (int n).toChar? = none := by
  have hsign : ¬ (int n).code < 0 := by
    show ¬ n < 0
    omega
  rw [toChar?, if_neg hsign]
  refine basicChar?_eq_none ?_
  show 0x10000 ≤ n.toNat
  omega

end Number

/-- A character of the first plane is found by its code. -/
theorem Numeric.convert_char {c : Char} (h : c.toNat < 0x10000) (checked : Bool) :
    Numeric.char.convert checked (.int c.toNat) = .ok (.char c) := by
  cases checked with
  | false =>
      rw [Numeric.convert, Number.toChar_toNat h]
      rfl
  | true =>
      rw [Numeric.convert, Number.toChar?_toNat h]
      rfl

/-- No other character is found. -/
theorem Numeric.convert_char_beyond {n : Int} (h : 0x10000 ≤ n) (checked : Bool) :
    if checked then Numeric.char.convert checked (.int n) = .error .overflow
    else ∃ c : Char, Numeric.char.convert checked (.int n) = .ok (.char c) ∧
      c.toNat < 0x10000 := by
  cases checked with
  | false => exact ⟨_, rfl, Number.toNat_toChar_lt _⟩
  | true =>
      rw [if_pos rfl, Numeric.convert, Number.toChar?_eq_none h]
      rfl

/-! ## There and back -/

namespace Integral

/-- A conversion finds the value of the target that stands for the same number, if there is one;
among characters it has to be one of the first plane. -/
theorem apply_conversion_eq (schema : Schema) (checked : Bool) {s t : Integral} {a : s.Elem}
    {b : t.Elem} (hb : t.number b = s.number a)
    (hplane : s ≠ t → t = .char → s.number a < 0x10000) :
    (s.conversion checked t).apply schema (s.value a) = .ok (t.value b) := by
  by_cases hst : s = t
  · subst hst
    rw [number_injective hb]
    exact apply_conversion_self schema checked a
  rw [apply_conversion schema checked hst, ← hb]
  cases t with
  | int t =>
      rw [numeric, Numeric.convert_int, number, IntType.converted_inRange (Word.toInt_inRange b),
        Value.ofInt, Word.ofInt_toInt]
      rfl
  | char =>
      have hlt : Integral.char.number b < 0x10000 := hb ▸ hplane hst rfl
      exact Numeric.convert_char (Int.ofNat_lt.mp hlt) checked

/-- There is no such value beyond the first plane. -/
theorem apply_conversion_beyond (schema : Schema) (checked : Bool) {t : Integral} (ht : t ≠ .char)
    {b : t.Elem} (h : 0x10000 ≤ t.number b) :
    let result := (t.conversion checked .char).apply schema (t.value b)
    if checked then result = .error .overflow
    else ∃ c : Char, result = .ok (.char c) ∧ c.toNat < 0x10000 := by
  rw [apply_conversion schema checked ht]
  exact Numeric.convert_char_beyond h checked

/-- Of the integer types only `u8` has all its numbers among the codes of characters. -/
theorem eq_u8_of_codes {t : IntType} (h : ∀ w : Word t, ∃ c : Char, (c.toNat : Int) = w.toInt) :
    t = .u8 := by
  have hnonneg : ¬ t.InRange (-1) := by
    intro hrange
    obtain ⟨c, hc⟩ := h (.ofInt t (-1))
    rw [Word.toInt_ofInt hrange] at hc
    omega
  -- the first surrogate is no character
  have hsurrogate : ¬ t.InRange 0xD800 := by
    intro hrange
    obtain ⟨c, hc⟩ := h (.ofInt t 0xD800)
    rw [Word.toInt_ofInt hrange] at hc
    have hvalid : c.toNat < 0xD800 ∨ 0xDFFF < c.toNat ∧ c.toNat < 0x110000 := c.valid
    omega
  cases t with
  | u8 => rfl
  | i8 | i16 | i32 | i64 => exact absurd (by decide) hnonneg
  | u16 | u32 | u64 => exact absurd (by decide) hsurrogate

/-- A type that is converted to the wider character type has small numbers. -/
theorem number_lt_of_wider {s t : Integral}
    (hwider : ∀ a : s.Elem, ∃ b : t.Elem, t.number b = s.number a) (hst : s ≠ t) (ht : t = .char)
    (a : s.Elem) : s.number a < 0x10000 := by
  subst ht
  cases s with
  | char => exact absurd rfl hst
  | int r =>
      obtain rfl := eq_u8_of_codes hwider
      have hrange := Word.toInt_inRange a
      rw [IntType.inRange_unsigned rfl] at hrange
      exact hrange.2.trans (by decide)

end Integral

section RoundTrips

variable {e : Environment} {params : List Parameter} {args : List Value} {x : Operand}
  {s t : Integral}

/-- **Widening and converting back.** If every number of the type `s` is one of the type `t`, then
converting a value of type `s` to `t` and back, each time with or without a check, returns the
value, unless it is a character beyond the first plane that was converted to an integer type. Then
the way back overflows, or, without a check, ends at a character of the first plane. -/
theorem eval_widening_round_trip (hwider : ∀ a : s.Elem, ∃ b : t.Elem, t.number b = s.number a)
    (h : Operand.Given e.schema params args [x]) (hx : x.ty = s.ty) (there back : Bool)
    (i j k l : Nat) (name : Option String) (w : World) :
    let result := e.eval (.ofLambda i (.mk j name params
      (.convertBy back l (.convertBy there k x.node t.ty) s.ty))) args w
    ∃ a, x.value (argumentOf params args) = s.value a ∧
      (result = (.ok (s.value a), w) ↔ (s = .char → t ≠ .char → s.number a < 0x10000)) ∧
      (s = .char → t ≠ .char → 0x10000 ≤ s.number a →
        if back then result = (.error (.raised (.runtime .overflow)), w)
        else ∃ c : Char, result = (.ok (.char c), w) ∧ c.toNat < 0x10000) := by
  intro result
  obtain ⟨a, ha, hoperand⟩ := h.gives_integral hx w.heap
  obtain ⟨b, hb⟩ := hwider a
  have hthere : (Node.convertBy there k x.node t.ty).Gives e.schema args (argumentOf params args)
      ([x].flatMap Operand.parameters) w.heap (.ok (t.value b)) := by
    have hplane := fun hst ht => Integral.number_lt_of_wider hwider hst ht a
    have hgives := hoperand.convertIntegral (x.ty_node.trans hx) there k t
    rw [Integral.apply_conversion_eq e.schema there hb hplane] at hgives
    exact hgives
  have hresult : result
      = (Outcome.report (.ofExcept ((t.conversion back s).apply e.schema (t.value b))), w) :=
    h.supplies.eval (hthere.convertIntegral (Node.ty_convertBy ..) back l s) i j name
  have hreturns (hcode : s = .char → t ≠ .char → s.number a < 0x10000) :
      result = (.ok (s.value a), w) := by
    have hplane : t ≠ s → s = .char → t.number b < 0x10000 := fun hts hs =>
      hb ▸ hcode hs (hs ▸ hts)
    rw [hresult, Integral.apply_conversion_eq e.schema back hb.symm hplane]
    rfl
  have hbeyond : s = .char → t ≠ .char → 0x10000 ≤ s.number a →
      if back then result = (.error (.raised (.runtime .overflow)), w)
      else ∃ c : Char, result = (.ok (.char c), w) ∧ c.toNat < 0x10000 := by
    rintro rfl ht hcode
    have happly := Integral.apply_conversion_beyond e.schema back ht (hb ▸ hcode)
    rw [hresult]
    cases back with
    | false =>
        obtain ⟨c, hc, hlt⟩ := happly
        exact ⟨c, by rw [hc]; rfl, hlt⟩
    | true =>
        rw [if_pos rfl] at happly ⊢
        rw [happly]
        rfl
  refine ⟨a, ha, ⟨fun heq hs ht => ?_, hreturns⟩, hbeyond⟩
  -- what comes back from beyond the first plane is not the character that went there
  by_contra hcode
  have hother := hbeyond hs ht (Int.not_lt.mp hcode)
  subst hs
  rw [heq] at hother
  cases back with
  | false =>
      obtain ⟨c, hc, hlt⟩ := hother
      obtain rfl : a = c := by
        cases hc
        rfl
      exact hcode (Int.ofNat_lt.mpr hlt)
  | true =>
      rw [if_pos rfl] at hother
      cases hother

/-- Every code is a number of type `u32`. -/
theorem Integral.u32_wider_char (c : Integral.char.Elem) :
    ∃ b, (Integral.int .u32).number b = Integral.char.number c := by
  refine ⟨.ofInt .u32 c.toNat, Word.toInt_ofInt ?_⟩
  have hvalid : c.toNat < 0xD800 ∨ 0xDFFF < c.toNat ∧ c.toNat < 0x110000 := c.valid
  rw [IntType.inRange_unsigned rfl]
  show (0 : Int) ≤ c.toNat ∧ (c.toNat : Int) < 4294967296
  omega

/-- The character `é` comes back from the type `u32`. -/
theorem eval_widening_round_trip_character :
    let e : Environment := ⟨.empty, fun _ _ heap _ => .done (.ok .unit) heap, 1000, 0⟩
    let x : Operand := .parameter 1 ⟨0, "x", .char⟩
    e.eval (.ofLambda 3 (.mk 2 none [⟨0, "x", .char⟩]
      (.convertBy true 5 (.convertBy false 4 x.node (.int .u32)) .char))) [.char 'é'] {}
        = (.ok (.char 'é'), {}) := by
  intro e x
  have hx : x.ty = Integral.char.ty := rfl
  obtain ⟨a, ha, hreturns, -⟩ := eval_widening_round_trip (e := e) Integral.u32_wider_char
    (Operand.given_parameter (v := .char 'é') rfl 1) hx false true 3 2 4 5 none {}
  obtain rfl : 'é' = a := by
    cases ha
    rfl
  exact hreturns.mpr fun _ _ => by decide

/-- The character `U+1F600` does not come back, although every code is a number of type `u32`:
without a check it becomes `U+F600`, and with a check the way back overflows. -/
theorem widening_loses_character :
    let e : Environment := ⟨.empty, fun _ _ heap _ => .done (.ok .unit) heap, 1000, 0⟩
    let x : Operand := .parameter 1 ⟨0, "x", .char⟩
    let result (checked : Bool) := e.eval (.ofLambda 3 (.mk 2 none [⟨0, "x", .char⟩]
      (.convertBy checked 5 (.convertBy checked 4 x.node (.int .u32)) .char)))
        [.char (Char.ofNat 0x1F600)] {}
    (∀ c : Integral.char.Elem, ∃ b, (Integral.int .u32).number b = Integral.char.number c) ∧
      result false = (.ok (.char (Char.ofNat 0xF600)), {}) ∧
      result true = (.error (.raised (.runtime .overflow)), {}) := by
  intro e x result
  exact ⟨Integral.u32_wider_char, rfl, rfl⟩

end RoundTrips

end ExprTree
