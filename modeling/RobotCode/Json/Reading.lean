import RobotCode.Json.Printer
import RobotCode.Json.Tokens

/-!
# Reading printed text

How the tokenizer reads what the printer writes. A printed value is followed by a comma and a blank
or by the bracket that closes what it is in (`Tail`). A piece of text is read as its tokens, or else
what is read differs from its tokens in the text of a string (`Reads`): a string in a vector that
holds a quote, a backslash or a zero is read as another string, whatever follows it.
-/

namespace RobotCode.Json

open Flatbuffers List Option Tokenizer

def NoSpace (data : List Char) : Prop := consumeWhitespace data = some data

theorem noSpace_nil : NoSpace [] := rfl

variable {tail text data rest : List Char} {ts ts' : List Token} {c : Char} {t t' : Tokenizer}
  {pieces : List Piece} {faithful : Bool} {n : Nat}

theorem noSpace_cons (h : c ∉ [' ', '\r', '\t', '\n', '/']) (data : List Char) : NoSpace (c :: data) := by
  unfold NoSpace consumeWhitespace
  rw [consumeSpace.eq_def]
  split <;> simp_all

theorem stringBody_cons (hquote : c ≠ '"') (hbackslash : c ≠ '\\') (data : List Char) :
    stringBody (c :: data) = (stringBody data).map fun p => (c :: p.1, p.2) := by
  rw [stringBody.eq_def]
  split
  · next heq => cases heq
  · next heq => exact absurd (cons.inj heq).1 hbackslash
  · next heq => exact absurd (cons.inj heq).1 hbackslash
  · next heq =>
    cases heq
    rw [if_neg hquote]
    cases stringBody data <;> rfl

theorem stringBody_escape (c : Char) (data : List Char) :
    stringBody (escape c ++ data) = (stringBody data).map fun p => (c :: p.1, p.2) := by
  unfold escape
  split
  case h_8 =>
    apply stringBody_cons <;> assumption
  all_goals
    simp only [cons_append, nil_append, stringBody, escaped]
    cases stringBody data <;> rfl

theorem stringBody_flatMap_escape (text rest : List Char) :
    stringBody (text.flatMap escape ++ '"' :: rest) = some (text, rest) := by
  induction text with
  | nil => rfl
  | cons c text ih =>
    rw [flatMap_cons, append_assoc, stringBody_escape, ih]
    rfl

/-- The text has no quote, no backslash and no zero. -/
def plainText (text : List Char) : Bool :=
  text.all fun c => decide (c ≠ '"') && decide (c ≠ '\\') && decide (c ≠ Char.ofNat 0)

theorem plainText_iff : plainText text = true ↔ ∀ c ∈ text, c ≠ '"' ∧ c ≠ '\\' ∧ c ≠ Char.ofNat 0 := by
  simp [plainText, and_assoc]

theorem stringBody_plain (h : ∀ c ∈ text, c ≠ '"' ∧ c ≠ '\\') (rest : List Char) :
    stringBody (text ++ '"' :: rest) = some (text, rest) := by
  induction text with
  | nil => rfl
  | cons c text ih =>
    have hc := h c mem_cons_self
    rw [cons_append, stringBody_cons hc.1 hc.2, ih fun c hc => h c (mem_cons_of_mem _ hc)]
    rfl

/-! ### Strings that are not escaped -/

/-- There is no backslash and no zero before the first quote. -/
def Clean (data : List Char) : Prop :=
  ∀ c ∈ data.takeWhile (· ≠ '"'), c ≠ '\\' ∧ c ≠ Char.ofNat 0

theorem Clean.append {data' : List Char} (h : Clean data) (h' : Clean data') : Clean (data ++ data') := by
  intro c hc
  rw [takeWhile_append] at hc
  split at hc
  · next hlength =>
    have hall : data.takeWhile (· ≠ '"') = data := ( takeWhile_prefix _).eq_of_length hlength
    obtain hc | hc := mem_append.mp hc
    · exact h c (hall.symm ▸ hc)
    · exact h' c hc
  · exact h c hc

theorem clean_of_forall (h : ∀ c ∈ data, c ≠ '\\' ∧ c ≠ Char.ofNat 0) : Clean data :=
  fun c hc => h c (takeWhile_subset _ hc)

theorem clean_of_all (h : data.all (fun c => decide (c ≠ '\\') && decide (c ≠ Char.ofNat 0)) = true) : Clean data :=
  clean_of_forall fun c hc => by simpa using all_eq_true.mp h c hc

theorem clean_quote (data : List Char) : Clean ('"' :: data) := by
  intro c hc
  cases hc

theorem Clean.stringBody {s : List Char} (h : Clean data)
    (hbody : stringBody data = some (s, rest)) : ∀ c ∈ s, c ≠ '\\' ∧ c ≠ Char.ofNat 0 := by
  induction data generalizing s with
  | nil => exact absurd hbody (by simp [Json.stringBody])
  | cons d data ih =>
    by_cases hquote : d = '"'
    · subst hquote
      cases hbody
      simp
    · have htake : (d :: data).takeWhile (· ≠ '"') = d :: data.takeWhile (· ≠ '"') := by
        simp [hquote]
      have hd := h d (by rw [htake]; exact mem_cons_self)
      have hclean : Clean data := fun c hc => h c (by rw [htake]; exact mem_cons_of_mem _ hc)
      rw [stringBody_cons hquote hd.1] at hbody
      obtain ⟨⟨s', rest'⟩, hbody', hs⟩ := map_eq_some_iff.mp hbody
      cases hs
      exact forall_mem_cons.mpr ⟨hd, ih hclean hbody'⟩

theorem escaped_ne_zero {piece : List Char} (h : escaped c = some piece) :
    piece.length ≤ 1 ∧ Char.ofNat 0 ∉ piece := by
  unfold escaped at h
  split at h
  case h_9 => cases h
  all_goals
    cases h
    decide

/-- Reading a text in quotes ends at one of its quotes, with no more characters than it has and fewer if there was a backslash,
or past its last character, which is then a backslash. -/
theorem stringBody_cases {s : List Char} (hn : text.length ≤ n)
    (h : stringBody (text ++ '"' :: tail) = some (s, rest)) :
    (s.length ≤ text.length ∧ (s.length = text.length → ∀ c ∈ text, c ≠ '"' ∧ c ≠ '\\') ∧
        (Char.ofNat 0 ∉ text → Char.ofNat 0 ∉ s)) ∨
      (text.getLast? = some '\\' ∧ ∃ s1 z, s = s1 ++ '"' :: z ∧
        stringBody tail = some (z, rest) ∧ (Char.ofNat 0 ∉ text → Char.ofNat 0 ∉ s1)) := by
  -- an escape takes two characters, so the induction is on a bound of the length
  induction n using Nat.strongRecOn generalizing text s with
  | _ n ih =>
    cases text with
    | nil =>
      cases h
      exact .inl ⟨Nat.le_refl _, fun _ => by simp, id⟩
    | cons c text =>
      by_cases hquote : c = '"'
      · subst hquote
        cases h
        exact .inl ⟨Nat.zero_le _, fun h => absurd h (by simp), fun _ => by simp⟩
      · by_cases hbackslash : c = '\\'
        · subst hbackslash
          cases text with
          | nil =>
            obtain ⟨⟨z, rest'⟩, hz, hs⟩ := bind_eq_some_iff.mp h
            cases hs
            exact .inr ⟨rfl, [], z, rfl, hz, fun _ => by simp⟩
          | cons d text =>
            obtain ⟨piece, hpiece, h⟩ := bind_eq_some_iff.mp h
            obtain ⟨⟨s', rest'⟩, hs', h⟩ := bind_eq_some_iff.mp h
            cases h
            obtain ⟨hlength, hzero⟩ := escaped_ne_zero hpiece
            have hsub : Char.ofNat 0 ∉ '\\' :: d :: text → Char.ofNat 0 ∉ text :=
              fun h hc => h (mem_cons_of_mem _ (mem_cons_of_mem _ hc))
            simp only [length_cons] at hn
            obtain hin | hpast := ih text.length (by omega) (Nat.le_refl _) hs'
            · refine .inl ⟨?_, ?_, fun h => by simp [hzero, hin.2.2 (hsub h)]⟩
              · simp only [length_append, length_cons]
                omega
              · intro heq
                simp only [length_append, length_cons] at heq
                omega
            · obtain ⟨hlast, s1, z, rfl, hz, hs1⟩ := hpast
              refine .inr ⟨?_, piece ++ s1, z, by simp, hz, fun h => by simp [hzero, hs1 (hsub h)]⟩
              rw [getLast?_cons_cons, getLast?_cons, hlast]
              rfl
        · rw [cons_append, stringBody_cons hquote hbackslash] at h
          obtain ⟨⟨s', rest'⟩, hs', h⟩ := map_eq_some_iff.mp h
          cases h
          simp only [length_cons] at hn
          obtain hin | hpast := ih text.length (by omega) (Nat.le_refl _) hs'
          · refine .inl ⟨Nat.succ_le_succ hin.1, ?_, ?_⟩
            · intro heq
              exact forall_mem_cons.mpr ⟨⟨hquote, hbackslash⟩, hin.2.1 (Nat.succ.inj heq)⟩
            · rw [mem_cons, mem_cons, not_or, not_or]
              exact And.imp_right hin.2.2
          · obtain ⟨hlast, s1, z, rfl, hz, hs1⟩ := hpast
            refine .inr ⟨?_, c :: s1, z, rfl, hz, ?_⟩
            · rw [getLast?_cons, hlast]
              rfl
            · rw [mem_cons, mem_cons, not_or, not_or]
              exact And.imp_right hs1

theorem cStr_ne_zero : Char.ofNat 0 ∉ cStr text := by
  intro hc
  have := mem_takeWhile_imp hc
  simp at this

theorem cStr_eq_self (h : Char.ofNat 0 ∉ text) : cStr text = text := by
  rw [cStr, takeWhile_eq_self_iff]
  intro c hc
  simpa using ne_of_mem_of_not_mem hc h

theorem stringBody_cStr_ne (htext : plainText text = false)
    (htail : Clean tail) : stringBody (cStr text ++ '"' :: tail) ≠ some (text, rest) := by
  intro h
  have hplain : ¬ ∀ c ∈ text, c ≠ '"' ∧ c ≠ '\\' ∧ c ≠ Char.ofNat 0 := by
    rw [← plainText_iff, htext]
    simp
  obtain hin | hpast := stringBody_cases (Nat.le_refl _) h
  · have hzero := hin.2.2 cStr_ne_zero
    rw [cStr_eq_self hzero] at hin
    apply hplain
    intro c hc
    have := hin.2.1 rfl c hc
    exact ⟨this.1, this.2, ne_of_mem_of_not_mem hc hzero⟩
  · obtain ⟨hlast, s1, z, hs, hz, hs1⟩ := hpast
    have hclean := htail.stringBody hz
    have hz0 : Char.ofNat 0 ∉ z := fun hc => (hclean _ hc).2 rfl
    rw [cStr_eq_self (by simp [hs, hs1 cStr_ne_zero, hz0])] at hlast
    -- the last character that is read is a quote or clean
    rw [hs, getLast?_append, getLast?_cons] at hlast
    cases hz' : z.getLast? with
    | none =>
      rw [hz'] at hlast
      cases hlast
    | some d =>
      rw [hz'] at hlast
      have hd : d = '\\' := some.inj hlast
      exact (hclean d (mem_of_getLast? hz')).1 hd

/-! ### Numbers -/

theorem isDigit_toDigits (h : c ∈ Nat.toDigits 10 n) : isDigit c = true := by
  have hdigit := Nat.isDigit_of_mem_toDigits (by decide) (by decide) h
  simp only [Char.isDigit, Bool.and_eq_true, decide_eq_true_eq] at hdigit
  simp only [isDigit, Bool.and_eq_true, decide_eq_true_eq]
  exact hdigit

theorem head_toDigits (hn : 0 < n) : (Nat.toDigits 10 n).head? ≠ some '0' := by
  induction n using Nat.strongRecOn with
  | _ n ih =>
    by_cases hlt : n < 10
    · have hdigit : ∀ n < 10, 0 < n → [n.digitChar].head? ≠ some '0' := by decide
      rw [Nat.toDigits_of_lt_base hlt]
      exact hdigit n hlt hn
    · rw [Nat.toDigits_of_base_le (by decide) (Nat.le_of_not_lt hlt)]
      have hdiv : 0 < n / 10 := Nat.div_pos (Nat.le_of_not_lt hlt) (by decide)
      cases hdigits : Nat.toDigits 10 (n / 10) with
      | nil => exact absurd hdigits Nat.toDigits_ne_nil
      | cons c digits =>
        have := ih (n / 10) (Nat.div_lt_self hn (by decide)) hdiv
        rw [hdigits] at this
        exact this

def AfterNumber (tail : List Char) : Prop := char tail ∈ [',', ']', '}']

theorem AfterNumber.ne_nil (h : AfterNumber tail) : tail ≠ [] := by
  intro hnil
  rw [hnil] at h
  exact absurd h (by simp [AfterNumber, char])

theorem AfterNumber.dropWhile {digits : List Char} (h : AfterNumber tail)
    (hdigits : ∀ c ∈ digits, isDigit c = true) : (digits ++ tail).dropWhile isDigit = tail := by
  rw [dropWhile_append_of_pos hdigits]
  cases tail with
  | nil => rfl
  | cons c tail =>
    have hc : isDigit c = false := by
      have hmem : c ∈ [',', ']', '}'] := h
      simp only [mem_cons, not_mem_nil, or_false] at hmem
      obtain rfl | rfl | rfl := hmem <;> decide
    rw [dropWhile_cons, hc]
    rfl

theorem consumeInteger_toDigits (n : Nat) (h : AfterNumber tail) :
    consumeInteger (Nat.toDigits 10 n ++ tail) = some tail := by
  obtain hn | hn := Nat.eq_zero_or_pos n
  · subst hn
    rfl
  · have hhead := head_toDigits hn
    have hdigits : consumeDigits (Nat.toDigits 10 n ++ tail) = some tail := by
      rw [consumeDigits, h.dropWhile fun c hc => isDigit_toDigits hc, if_neg h.ne_nil]
    rw [consumeInteger]
    have hzero : consume ['0'] (Nat.toDigits 10 n ++ tail) = none := by
      rw [eq_none_iff_forall_ne_some]
      intro rest hrest
      rw [consume_eq_some] at hrest
      cases hcase : Nat.toDigits 10 n with
      | nil => exact absurd hcase Nat.toDigits_ne_nil
      | cons c digits =>
        rw [hcase] at hrest hhead
        exact hhead (congrArg some (cons.inj hrest).1)
    rw [hzero]
    exact hdigits

theorem AfterNumber.consumeFraction (h : AfterNumber tail) : consumeFraction tail = some tail := by
  rw [Json.consumeFraction, if_neg]
  intro hc
  rw [AfterNumber, hc] at h
  exact absurd h (by decide)

theorem AfterNumber.consumeExponent (h : AfterNumber tail) : consumeExponent tail = some tail := by
  rw [Json.consumeExponent, if_neg]
  intro hc
  obtain hc | hc := hc
  · rw [AfterNumber, hc] at h
    exact absurd h (by decide)
  · rw [AfterNumber, hc] at h
    exact absurd h (by decide)

theorem consume_eq_none {token : List Char} (h : token.head? ≠ data.head?) (hne : token ≠ []) :
    consume token data = none := by
  cases token with
  | nil => exact absurd rfl hne
  | cons c token =>
    cases data with
    | nil => rfl
    | cons d data =>
      rw [consume, if_neg]
      intro hcd
      exact h (congrArg some hcd)

theorem head_digits_append (n : Nat) (tail : List Char) :
    ∃ c, (Nat.toDigits 10 n ++ tail).head? = some c ∧ isDigit c = true := by
  cases hcase : Nat.toDigits 10 n with
  | nil => exact absurd hcase Nat.toDigits_ne_nil
  | cons c digits =>
    exact ⟨c, rfl, isDigit_toDigits (n := n) (by rw [hcase]; exact mem_cons_self)⟩

theorem consume_digits_eq_none (n : Nat) (tail : List Char) (hc : isDigit c = false)
    (token : List Char) : consume (c :: token) (Nat.toDigits 10 n ++ tail) = none := by
  obtain ⟨d, hhead, hd⟩ := head_digits_append n tail
  apply consume_eq_none _ (by simp)
  rw [hhead]
  intro heq
  rw [← some.inj heq, hc] at hd
  cases hd

theorem consumeNumber_digits {original : List Char} (n : Nat) (h : AfterNumber tail)
    (hsign : (consume ['-'] original).getD original = Nat.toDigits 10 n ++ tail) :
    consumeNumber original = (some (consumed original tail), tail) := by
  obtain ⟨d, hhead, hd⟩ := head_digits_append n tail
  have hdigit : ¬ (Nat.toDigits 10 n ++ tail = [] ∨ ¬ isDigit (char (Nat.toDigits 10 n ++ tail))) := by
    intro hor
    cases hdata : Nat.toDigits 10 n ++ tail with
    | nil =>
      rw [hdata] at hhead
      cases hhead
    | cons c data =>
      rw [hdata] at hor hhead
      obtain hnil | hnot := hor
      · cases hnil
      · exact hnot (some.inj hhead ▸ hd)
  have hnan := consume_digits_eq_none n tail (c := 'n') (by decide)
  have hinf := consume_digits_eq_none n tail (c := 'i') (by decide)
  unfold consumeNumber
  simp only [hsign, hnan, hinf, if_neg hdigit, consumeInteger_toDigits n h, bind_some,
    h.consumeFraction, h.consumeExponent]

theorem consumeNumber_appendInt (x : Int) (h : AfterNumber tail) :
    consumeNumber (appendInt x ++ tail) = (some (appendInt x), tail) := by
  have htext : consumed (appendInt x ++ tail) tail = appendInt x := by
    rw [consumed, length_append, Nat.add_sub_cancel, take_left]
  cases x with
  | ofNat n =>
    rw [consumeNumber_digits n h, htext]
    rw [appendInt, consume_digits_eq_none n tail (by decide)]
    rfl
  | negSucc n =>
    rw [consumeNumber_digits (n + 1) h, htext]
    rfl

inductive Steps : Tokenizer → List Token → Tokenizer → Prop
  | nil {t : Tokenizer} : Steps t [] t
  | cons {t t' t'' : Tokenizer} {token : Token} {ts : List Token} : t.next = some (token, t') →
      token ≠ .done → Steps t' ts t'' → Steps t (token :: ts) t''

theorem Steps.single {token : Token} (h : t.next = some (token, t'))
    (htoken : token ≠ .done) : Steps t [token] t' := .cons h htoken .nil

theorem Steps.append {t'' : Tokenizer} (h : Steps t ts t') (h' : Steps t' ts' t'') : Steps t (ts ++ ts') t'' := by
  induction h with
  | nil => exact h'
  | cons hnext htoken _ ih => exact .cons hnext htoken (ih h')

theorem Steps.tokens {all : List Token} (h : Steps t ts t')
    (hall : tokens n t = some all) : ∃ m rest, tokens m t' = some rest ∧ all = ts ++ rest := by
  induction h generalizing n all with
  | nil => exact ⟨n, all, hall, rfl⟩
  | cons hnext htoken _ ih =>
    cases n with
    | zero => exact absurd hall (by simp [tokens])
    | succ n =>
      rw [tokens_succ_of_ne hnext htoken] at hall
      obtain ⟨ts', hts', rfl⟩ := map_eq_some_iff.mp hall
      obtain ⟨m, rest, hrest, rfl⟩ := ih hts'
      exact ⟨m, rest, hrest, rfl⟩

theorem Steps.tokens_eq {t'' : Tokenizer} (h : Steps t ts t') (hdone : t'.next = some (.done, t'')) (n : Nat) :
    Json.tokens (ts.length + 1 + n) t = some ts := by
  induction h with
  | nil =>
    rw [length_nil, Nat.add_comm, Nat.zero_add, Json.tokens, hdone]
  | @cons _ _ _ _ ts hnext htoken _ ih =>
    have hlength : (ts.length + 1) + 1 + n = (ts.length + 1 + n) + 1 := by omega
    rw [length_cons, hlength, tokens_succ_of_ne hnext htoken, ih hdone]
    rfl

/-- The second list goes on differently from the first after a common start, with another string. -/
def Differs (ts ts' : List Token) : Prop :=
  ∃ start s s' rest rest', s ≠ s' ∧ ts = start ++ .string s :: rest ∧
    ts' = start ++ .string s' :: rest'

theorem Differs.append_right (h : Differs ts ts') (more : List Token) : Differs (ts ++ more) ts' := by
  obtain ⟨start, s, s', rest, rest', hne, rfl, rfl⟩ := h
  exact ⟨start, s, s', rest ++ more, rest', hne, by simp, rfl⟩

theorem Differs.append_left (h : Differs ts ts') (more : List Token) : Differs (more ++ ts) (more ++ ts') := by
  obtain ⟨start, s, s', rest, rest', hne, rfl, rfl⟩ := h
  exact ⟨more ++ start, s, s', rest, rest', hne, by simp, by simp⟩

/-- What follows a value, with the state and the place that the tokenizer gets to. -/
inductive Tail (type : ObjectType) : List Char → State → List Char → Prop
  | comma {rest : List Char} : NoSpace rest →
      Tail type (',' :: ' ' :: rest) (following type) rest
  | close {rest : List Char} : NoSpace rest →
      Tail type (closing type :: rest) (closed type) rest

section

variable {type : ObjectType} {outer : List ObjectType} {tail rest : List Char} {state : State}

theorem Tail.afterNumber (h : Tail type tail state rest) : AfterNumber tail := by
  cases h with
  | comma _ => simp [AfterNumber, char]
  | close _ => cases type <;> simp [AfterNumber, char, closing]

theorem Tail.noSpace (h : Tail type tail state rest) : NoSpace tail := by
  cases h with
  | comma _ => exact noSpace_cons (by decide) _
  | close _ => cases type <;> exact noSpace_cons (by decide) _

theorem Tail.separate (h : Tail type tail state rest) (token : Token) :
    separate token (type :: outer) tail = some (token, ⟨state, rest, type :: outer⟩) := by
  cases h with
  | comma hrest =>
    have hspace : consumeWhitespace (' ' :: rest) = some rest := hrest
    simp [separate, consume, hspace, bind_eq_bind, bind_some]
  | close hrest =>
    have hcomma : consume [','] (closing type :: rest) = none := by
      cases type <;> rfl
    have hclose : consume [closing type] (closing type :: rest) = some rest := consume_eq_some.mpr rfl
    have hspace : consumeWhitespace rest = some rest := hrest
    simp [separate, hcomma, hclose, hspace, bind_eq_bind, bind_some]

theorem Tail.steps_end (inner : ObjectType) (h : Tail type tail state rest) :
    Steps ⟨closed inner, tail, inner :: type :: outer⟩ [endToken inner]
      ⟨state, rest, type :: outer⟩ := by
  apply Steps.single _ (endToken_ne_done inner)
  have hend : nextEnd (endToken inner) (inner :: type :: outer) tail
      = some (endToken inner, ⟨state, rest, type :: outer⟩) := h.separate _
  cases inner <;> exact hend

end

structure Reads (state : State) (text : List Char) (ts : List Token) (faithful : Bool) : Prop where
  steps : faithful = true → ∀ {type : ObjectType} {outer : List ObjectType} {tail rest : List Char}
    {state' : State}, Tail type tail state' rest →
      Steps ⟨state, text ++ tail, type :: outer⟩ ts ⟨state', rest, type :: outer⟩
  differs : faithful = false → ∀ {type : ObjectType} {outer : List ObjectType}
    {tail rest : List Char} {state' : State}, Tail type tail state' rest → Clean tail →
      ∀ {n : Nat} {ts' : List Token}, tokens n ⟨state, text ++ tail, type :: outer⟩ = some ts' →
        Differs ts ts'
  noSpace : ∀ more, NoSpace (text ++ more)
  clean : Clean text

/-- The tokenizer reads these tokens, or else something that differs from them as long as the text that follows is clean. -/
structure Outcome (faithful clean : Prop) (t : Tokenizer) (ts : List Token) (t' : Tokenizer) : Prop where
  steps : faithful → Steps t ts t'
  differs : ¬ faithful → clean → ∀ {n : Nat} {ts' : List Token}, tokens n t = some ts' → Differs ts ts'

section

variable {p q clean clean' : Prop} {t'' : Tokenizer} {state state' : State} {type : ObjectType} {outer : List ObjectType}

theorem Steps.then (h : Steps t ts t') (h' : Outcome p clean t' ts' t'') : Outcome p clean t (ts ++ ts') t'' where
  steps hp := h.append (h'.steps hp)
  differs hp hclean n all hall := by
    obtain ⟨m, rest, hrest, rfl⟩ := h.tokens hall
    exact (h'.differs hp hclean hrest).append_left ts

theorem Outcome.then_steps (h : Outcome p clean t ts t') (h' : Steps t' ts' t'') : Outcome p clean t (ts ++ ts') t'' where
  steps hp := (h.steps hp).append h'
  differs hp hclean _ _ hall := (h.differs hp hclean hall).append_right ts'

theorem Outcome.then (h : Outcome p clean t ts t') (h' : Outcome q clean' t' ts' t'') (hclean : clean' → clean) :
    Outcome (p ∧ q) clean' t (ts ++ ts') t'' where
  steps hpq := (h.steps hpq.1).append (h'.steps hpq.2)
  differs hpq hclean' n all hall := by
    by_cases hp : p
    · exact ((h.steps hp).then h').differs (fun hq => hpq ⟨hp, hq⟩) hclean' hall
    · exact (h.differs hp (hclean hclean') hall).append_right ts'

theorem Reads.outcome (h : Reads state text ts faithful) (htail : Tail type tail state' rest) :
    Outcome (faithful = true) (Clean tail) ⟨state, text ++ tail, type :: outer⟩ ts ⟨state', rest, type :: outer⟩ where
  steps hfaithful := h.steps hfaithful htail
  differs hfaithful hclean := h.differs (Bool.eq_false_iff.mpr hfaithful) htail hclean

theorem reads_of_outcome (hspace : ∀ more, NoSpace (text ++ more)) (hclean : Clean text)
    (h : ∀ {type : ObjectType} {outer : List ObjectType} {tail rest : List Char} {state' : State},
      Tail type tail state' rest → Outcome (faithful = true) (Clean tail) ⟨state, text ++ tail, type :: outer⟩ ts
        ⟨state', rest, type :: outer⟩) : Reads state text ts faithful where
  steps hfaithful _ _ _ _ _ htail := (h htail).steps hfaithful
  differs hfaithful _ _ _ _ _ htail := (h htail).differs (Bool.eq_false_iff.mp hfaithful)
  noSpace := hspace
  clean := hclean

end

theorem reads_literal (value : Literal) {more : List Char}
    (htext : text = c :: more) (hspace : c ∉ [' ', '\r', '\t', '\n', '/']) (hclean : Clean text)
    (h : ∀ (type : ObjectType) (outer : List ObjectType) (tail : List Char), AfterNumber tail →
      nextValue (type :: outer) (text ++ tail)
        = (consumeWhitespace tail).bind (separate value.token (type :: outer))) :
    Reads .expectValue text [value.token] true := by
  constructor
  · intro _ type outer tail rest state' htail
    apply Steps.single
    · have hspace : consumeWhitespace tail = some tail := htail.noSpace
      change nextValue (type :: outer) (text ++ tail) = _
      rw [h type outer tail htail.afterNumber, hspace, bind_some, htail.separate]
    · cases value <;> simp [Literal.token]
  · intro hfalse
    cases hfalse
  · intro more
    rw [htext]
    exact noSpace_cons hspace _
  · exact hclean

theorem consumeString_eq_none (hc : c ≠ '"') (data : List Char) : consumeString (c :: data) = none := by
  unfold consumeString
  split
  · next heq => exact absurd (cons.inj heq).1 hc
  · rfl

theorem appendInt_cons (x : Int) : ∃ c more, appendInt x = c :: more := by
  cases x with
  | ofNat n =>
    cases h : Nat.toDigits 10 n with
    | nil => exact absurd h Nat.toDigits_ne_nil
    | cons c more => exact ⟨c, more, h⟩
  | negSucc n => exact ⟨_, _, rfl⟩

theorem mem_appendInt {x : Int} (h : c ∈ appendInt x) : c = '-' ∨ isDigit c = true := by
  cases x with
  | ofNat n => exact .inr (isDigit_toDigits h)
  | negSucc n =>
    obtain h | h := mem_cons.mp h
    · exact .inl h
    · exact .inr (isDigit_toDigits h)

theorem ne_of_mem_appendInt {x : Int} {d : Char} (h : c ∈ appendInt x) (hsign : d ≠ '-')
    (hdigit : isDigit d = false) : c ≠ d := by
  intro hcd
  subst hcd
  obtain h | h := mem_appendInt h
  · exact hsign h
  · rw [hdigit] at h
    cases h

theorem reads_number (x : Int) : Reads .expectValue (appendInt x) [.number (appendInt x)] true := by
  obtain ⟨c, more, htext⟩ := appendInt_cons x
  have hne : ∀ d, d ≠ '-' → isDigit d = false → c ≠ d :=
    fun d => ne_of_mem_appendInt (x := x) (by rw [htext]; exact mem_cons_self)
  apply reads_literal (.number (appendInt x)) htext
  · simp only [mem_cons, not_mem_nil, or_false, not_or]
    exact ⟨hne _ (by decide) (by decide), hne _ (by decide) (by decide), hne _ (by decide) (by decide),
      hne _ (by decide) (by decide), hne _ (by decide) (by decide)⟩
  · apply clean_of_forall
    intro d hd
    exact ⟨ne_of_mem_appendInt hd (by decide) (by decide), ne_of_mem_appendInt hd (by decide) (by decide)⟩
  · intro type outer tail htail
    have hopen : ∀ d, d ≠ '-' → isDigit d = false → consume [d] (appendInt x ++ tail) = none := by
      intro d hsign hdigit
      rw [htext, cons_append, consume, if_neg (Ne.symm (hne d hsign hdigit))]
    have hstring : consumeString (appendInt x ++ tail) = none := by
      rw [htext]
      exact consumeString_eq_none (hne _ (by decide) (by decide)) _
    rw [nextValue, hopen _ (by decide) (by decide), hopen _ (by decide) (by decide), hstring,
      consumeNumber_appendInt x htail]
    rfl

theorem reads_bool (b : Bool) :
    Reads .expectValue (appendBool b) [(if b then Literal.true else Literal.false).token] true := by
  cases b with
  | true =>
    apply reads_literal .true (c := 't') rfl (by decide) (clean_of_all (by decide))
    intro type outer tail _
    rfl
  | false =>
    apply reads_literal .false (c := 'f') rfl (by decide) (clean_of_all (by decide))
    intro type outer tail _
    rfl

theorem quoted_append (text tail : List Char) : quoted text ++ tail = '"' :: (text ++ '"' :: tail) := by
  simp [quoted]

theorem noSpace_quoted (text more : List Char) : NoSpace (quoted text ++ more) := noSpace_cons (by decide) _

theorem steps_quoted {type : ObjectType} {outer : List ObjectType}
    {state : State} (hbody : stringBody (data ++ '"' :: tail) = some (text, tail))
    (htail : Tail type tail state rest) :
    Steps ⟨.expectValue, quoted data ++ tail, type :: outer⟩ [.string text]
      ⟨state, rest, type :: outer⟩ := by
  apply Steps.single _ (by simp)
  have hspace : consumeWhitespace tail = some tail := htail.noSpace
  have hstring : consumeString (quoted data ++ tail) = some (text, tail) := by
    rw [quoted_append]
    exact hbody
  have hobject : consume ['{'] (quoted data ++ tail) = none := rfl
  have harray : consume ['['] (quoted data ++ tail) = none := rfl
  change nextValue (type :: outer) (quoted data ++ tail) = _
  rw [nextValue, hobject, harray, hstring]
  dsimp only
  rw [hspace]
  exact htail.separate _

theorem reads_string (text : List Char) :
    Reads .expectValue (quoted (text.flatMap escape)) [.string text] true where
  steps := fun _ _ _ _ _ _ htail => steps_quoted (stringBody_flatMap_escape text _) htail
  differs := fun h => absurd h (by simp)
  noSpace := noSpace_quoted _
  clean := clean_quote _

theorem nextValue_quote {type : ObjectType} {outer : List ObjectType} {token : Token}
    (h : nextValue (type :: outer) ('"' :: data) = some (token, t)) :
    ∃ s rest, stringBody data = some (s, rest) ∧ token = .string s := by
  cases hbody : stringBody data with
  | none =>
    have hstring : consumeString ('"' :: data) = none := hbody
    rw [nextValue] at h
    simp only [hstring] at h
    cases type <;> exact absurd h (by simp [consume, consumeNumber, isDigit, char, nextClosing, closing])
  | some body =>
    obtain ⟨s, rest⟩ := body
    have hstring : consumeString ('"' :: data) = some (s, rest) := hbody
    rw [nextValue] at h
    simp only [hstring, consume] at h
    obtain ⟨rest', _, h⟩ := bind_eq_some_iff.mp h
    exact ⟨s, rest, rfl, (separate_spec h).1⟩

theorem reads_rawString (text : List Char) :
    Reads .expectValue (quoted (cStr text)) [.string text] (plainText text) := by
  constructor
  · intro hplain type outer tail rest state htail
    have hchars := plainText_iff.mp hplain
    rw [cStr_eq_self fun hc => (hchars _ hc).2.2 rfl]
    exact steps_quoted (stringBody_plain (fun c hc => ⟨(hchars c hc).1, (hchars c hc).2.1⟩) _) htail
  · intro hplain type outer tail rest state htail hclean n ts' hts'
    cases n with
    | zero => exact absurd hts' (by simp [tokens])
    | succ n =>
      cases hnext : next ⟨.expectValue, quoted (cStr text) ++ tail, type :: outer⟩ with
      | none =>
        rw [tokens, hnext] at hts'
        cases hts'
      | some next =>
        obtain ⟨token, t⟩ := next
        have hvalue := hnext
        rw [quoted_append] at hvalue
        obtain ⟨s, rest', hbody, rfl⟩ := nextValue_quote hvalue
        rw [tokens_succ_of_ne hnext (by simp)] at hts'
        obtain ⟨ts, _, rfl⟩ := map_eq_some_iff.mp hts'
        refine ⟨[], text, s, [], ts, ?_, rfl, rfl⟩
        intro heq
        rw [← heq] at hbody
        exact stringBody_cStr_ne hplain hclean hbody
  · exact noSpace_quoted _
  · exact clean_quote _

theorem namedField_append (name text tail : List Char) :
    namedField name text ++ tail = quoted name ++ (':' :: ' ' :: (text ++ tail)) := by
  simp [namedField]

theorem Reads.field {name : List Char}
    (h : Reads .expectValue text ts faithful) (hname : ∀ c ∈ name, c ≠ '"' ∧ c ≠ '\\') :
    Reads .expectField (namedField name text) (.field name :: ts) faithful := by
  have hstep : ∀ (tail : List Char) (types : List ObjectType),
      next ⟨.expectField, namedField name text ++ tail, types⟩
        = some (.field name, ⟨.expectValue, text ++ tail, types⟩) := by
    intro tail types
    have hstring : consumeString (namedField name text ++ tail)
        = some (name, ':' :: ' ' :: (text ++ tail)) := by
      rw [namedField_append, quoted_append]
      exact stringBody_plain hname _
    have hcolon : consumeWhitespace (':' :: ' ' :: (text ++ tail))
        = some (':' :: ' ' :: (text ++ tail)) := noSpace_cons (by decide) _
    have hblank : consumeWhitespace (' ' :: (text ++ tail)) = some (text ++ tail) := h.noSpace tail
    simp [Tokenizer.next, hstring, hcolon, hblank, consume, bind_eq_bind, bind_some]
  apply reads_of_outcome
  · intro more
    rw [namedField_append]
    exact noSpace_quoted _ _
  · exact clean_quote _
  · intro type outer tail rest state htail
    exact (Steps.single (hstep tail _) (by simp)).then (h.outcome htail)

structure Piece where
  text : List Char
  tokens : List Token
  faithful : Bool

section

variable {type : ObjectType} {outer : List ObjectType} {rest : List Char} {depth : Nat}

theorem joined_cons_cons (text text' : List Char) (texts : List (List Char)) :
    joined false depth (text :: text' :: texts) = text ++ (',' :: ' ' :: joined false depth (text' :: texts)) := rfl

variable {pieces : List Piece}

theorem noSpace_joined {state : State} {p : Piece} (hp : Reads state p.text p.tokens p.faithful) (more : List Char) :
    NoSpace (joined false depth ((p :: pieces).map Piece.text) ++ more) := by
  cases pieces with
  | nil => exact hp.noSpace more
  | cons q pieces =>
    rw [map_cons, map_cons, joined_cons_cons, append_assoc]
    exact hp.noSpace _

theorem clean_joined {state : State} (h : ∀ p ∈ pieces, Reads state p.text p.tokens p.faithful) :
    Clean (joined false depth (pieces.map Piece.text)) := by
  induction pieces with
  | nil => exact clean_of_forall (by simp [joined])
  | cons p pieces ih =>
    have hp := (h p mem_cons_self).clean
    cases pieces with
    | nil => exact hp
    | cons q pieces =>
      have hrest := ih fun p hp => h p (mem_cons_of_mem _ hp)
      have hcomma : Clean [',', ' '] := clean_of_all (by decide)
      exact hp.append (hcomma.append hrest)

theorem clean_closing (h : Clean rest) : Clean (closing type :: rest) := by
  have hclosing : Clean [closing type] := by
    cases type <;> exact clean_of_all (by decide)
  exact hclosing.append h

theorem outcome_joined (type : ObjectType) {p : Piece}
    (h : ∀ q ∈ p :: pieces, Reads (following type) q.text q.tokens q.faithful) (hrest : NoSpace rest) :
    Outcome (∀ q ∈ p :: pieces, q.faithful = true) (Clean rest)
      ⟨following type, joined false depth ((p :: pieces).map Piece.text) ++ closing type :: rest, type :: outer⟩
      ((p :: pieces).flatMap Piece.tokens) ⟨closed type, rest, type :: outer⟩ := by
  obtain ⟨hp, hpieces⟩ := forall_mem_cons.mp h
  induction pieces generalizing p with
  | nil =>
    have htail : Tail type (closing type :: rest) (closed type) rest := .close hrest
    rw [flatMap_cons, flatMap_nil, append_nil, forall_mem_singleton]
    exact ⟨(hp.outcome htail).steps, fun hp' hclean => (hp.outcome htail).differs hp' (clean_closing hclean)⟩
  | cons q pieces ih =>
    rw [map_cons, map_cons, joined_cons_cons, append_assoc, flatMap_cons, forall_mem_cons]
    have hq := hpieces q mem_cons_self
    have hcomma : Clean [',', ' '] := clean_of_all (by decide)
    apply (hp.outcome (.comma (noSpace_joined hq _))).then
    · exact ih hpieces hq fun r hr => hpieces r (mem_cons_of_mem q hr)
    · intro hclean
      exact hcomma.append ((clean_joined hpieces).append (clean_closing hclean))

end

/-! ### Objects and arrays -/

theorem openObject_joined (depth : Nat) (outer : List ObjectType)
    (h : ∀ p ∈ pieces, Reads .expectField p.text p.tokens p.faithful)
    (hquote : ∀ p ∈ pieces, p.text.head? = some '"') (hrest : NoSpace rest) :
    ∃ t, Tokenizer.openObject outer (joined false depth (pieces.map Piece.text) ++ '}' :: rest)
        = some (.startObject, t) ∧
      Outcome (∀ p ∈ pieces, p.faithful = true) (Clean rest) t (pieces.flatMap Piece.tokens)
        ⟨.expectObjectEnd, rest, .object :: outer⟩ := by
  have hspace : consumeWhitespace rest = some rest := hrest
  cases pieces with
  | nil =>
    have hclose : consumeWhitespace ('}' :: rest) = some ('}' :: rest) := noSpace_cons (by decide) _
    refine ⟨⟨.expectObjectEnd, rest, .object :: outer⟩, ?_, fun _ => .nil, fun h => absurd h (by simp)⟩
    simp [Tokenizer.openObject, joined, hclose, consume, hspace]
  | cons p pieces =>
    have hp := h p List.mem_cons_self
    have hdata : consumeWhitespace (joined false depth ((p :: pieces).map Piece.text) ++ '}' :: rest)
        = some (joined false depth ((p :: pieces).map Piece.text) ++ '}' :: rest) :=
      noSpace_joined hp _
    have hopen : consume ['}'] (joined false depth ((p :: pieces).map Piece.text) ++ '}' :: rest) = none := by
      have hhead := hquote p List.mem_cons_self
      cases htext : p.text with
      | nil =>
        rw [htext] at hhead
        exact absurd hhead (by simp)
      | cons c text =>
        rw [htext] at hhead
        cases hhead
        cases pieces <;> simp [joined, wrapping, htext, consume]
    refine ⟨⟨.expectField, joined false depth ((p :: pieces).map Piece.text) ++ '}' :: rest,
      .object :: outer⟩, ?_, outcome_joined .object h hrest⟩
    simp only [Tokenizer.openObject, hdata, hopen, Option.bind_eq_bind, Option.bind_some]

theorem reads_object {depth : Nat} (h : ∀ p ∈ pieces, Reads .expectField p.text p.tokens p.faithful)
    (hquote : ∀ p ∈ pieces, p.text.head? = some '"')
    (hfaithful : faithful = true ↔ ∀ p ∈ pieces, p.faithful = true) :
    Reads .expectValue ('{' :: (joined false depth (pieces.map Piece.text) ++ ['}']))
      (.startObject :: (pieces.flatMap Piece.tokens ++ [.endObject])) faithful := by
  apply reads_of_outcome
  · intro more
    exact noSpace_cons (by decide) _
  · have hopen : Clean ['{'] := clean_of_all (by decide)
    have hclose : Clean ['}'] := clean_of_all (by decide)
    exact hopen.append ((clean_joined h).append hclose)
  · intro type outer tail rest state htail
    obtain ⟨t, hopen, houtcome⟩ := openObject_joined depth (type :: outer) h hquote htail.noSpace
    rw [hfaithful, cons_append, append_assoc]
    refine Steps.then (.single ?_ (by simp)) (houtcome.then_steps (htail.steps_end .object))
    exact hopen

theorem reads_array {depth : Nat} (h : ∀ p ∈ pieces, Reads .expectValue p.text p.tokens p.faithful)
    (hfaithful : faithful = true ↔ ∀ p ∈ pieces, p.faithful = true) :
    Reads .expectValue ('[' :: (joined false depth (pieces.map Piece.text) ++ [']']))
      (.startArray :: (pieces.flatMap Piece.tokens ++ [.endArray])) faithful := by
  have hstep : ∀ (tail : List Char) (types : List ObjectType),
      next ⟨.expectValue, '[' :: (joined false depth (pieces.map Piece.text) ++ ']' :: tail), types⟩
        = some (.startArray, ⟨.expectValue,
            joined false depth (pieces.map Piece.text) ++ ']' :: tail, .array :: types⟩) := by
    intro tail types
    have hspace : consumeWhitespace (joined false depth (pieces.map Piece.text) ++ ']' :: tail)
        = some (joined false depth (pieces.map Piece.text) ++ ']' :: tail) := by
      cases pieces with
      | nil => exact noSpace_cons (by decide) _
      | cons p pieces => exact noSpace_joined (h p mem_cons_self) _
    have hvalue : ∀ data, nextValue types ('[' :: data)
        = (consumeWhitespace data).bind fun data =>
          some (.startArray, ⟨.expectValue, data, .array :: types⟩) := fun _ => rfl
    refine (hvalue _).trans ?_
    rw [hspace]
    rfl
  apply reads_of_outcome
  · intro more
    exact noSpace_cons (by decide) _
  · have hopen : Clean ['['] := clean_of_all (by decide)
    have hclose : Clean [']'] := clean_of_all (by decide)
    exact hopen.append ((clean_joined h).append hclose)
  · intro type outer tail rest state htail
    rw [hfaithful, cons_append, append_assoc]
    apply (Steps.single (hstep tail _) (by simp)).then
    cases pieces with
    | nil =>
      -- the bracket comes in place of a value
      refine ⟨fun _ => Steps.single ?_ (by simp), fun h => absurd h (by simp)⟩
      have hspace : consumeWhitespace tail = some tail := htail.noSpace
      have hclosing : nextValue (.array :: type :: outer) (']' :: tail)
          = (consumeWhitespace tail).bind
            (nextEnd .endArray (.array :: type :: outer)) := rfl
      refine hclosing.trans ?_
      rw [hspace]
      exact htail.separate _
    | cons p pieces =>
      exact (outcome_joined .array h htail.noSpace).then_steps (htail.steps_end .array)

end RobotCode.Json
