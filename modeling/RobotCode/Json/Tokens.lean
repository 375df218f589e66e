import RobotCode.Json.Document

/-!
# The tokens of a text

The tokenizer makes progress with every token, so a text has at most `tokenBound` of them and the
loops over them end (`tokens_of_le`). What it lets through is balanced: the tokens up to the last one
are those of one object (`tokens_eq_document`), so `document` fails only where the tokenizer reports
an error, and a loop over the tokens of a text is a loop over the tokens of its document.
-/

namespace RobotCode.Json

open Flatbuffers List Option Tokenizer

/-! ### Progress -/

variable {data rest : List Char} {t : Tokenizer} {token : Token} {n : Nat} {r : Reader}

theorem consume_eq_some {token : List Char} : consume token data = some rest ↔ data = token ++ rest := by
  induction token generalizing data with
  | nil => simp [consume]
  | cons c token ih =>
    cases data with
    | nil => simp [consume]
    | cons d data =>
      rw [consume]
      split
      · next h => simp [ih, h]
      · next h =>
        simp only [reduceCtorEq, cons_append, cons.injEq, false_iff, not_and]
        intro hd
        exact absurd hd.symm h

theorem length_consume_lt {c : Char} {token : List Char} (h : consume (c :: token) data = some rest) :
    rest.length < data.length := by
  rw [consume_eq_some.mp h, length_append, length_cons]
  omega

theorem length_consumeSpace {inComment : Bool}
    (h : consumeSpace inComment data = some rest) : rest.length ≤ data.length := by
  fun_induction consumeSpace inComment data <;> grind

theorem length_consumeWhitespace (h : consumeWhitespace data = some rest) : rest.length ≤ data.length :=
  length_consumeSpace h

theorem length_stringBody {s : List Char} (h : stringBody data = some (s, rest)) : rest.length < data.length := by
  fun_induction stringBody data generalizing s with
  | case1 | case2 => cases h
  | case3 c data ih =>
    obtain ⟨piece, _, h⟩ := bind_eq_some_iff.mp h
    obtain ⟨⟨s', rest'⟩, hbody, h⟩ := bind_eq_some_iff.mp h
    cases h
    have := ih hbody
    simp only [length_cons]
    omega
  | case4 data =>
    cases h
    exact Nat.lt_succ_self _
  | case5 c data _ _ _ ih =>
    obtain ⟨⟨s', rest'⟩, hbody, h⟩ := bind_eq_some_iff.mp h
    cases h
    exact Nat.lt_succ_of_lt (ih hbody)

theorem length_consumeString {s : List Char} (h : consumeString data = some (s, rest)) :
    rest.length < data.length := by
  unfold consumeString at h
  split at h
  · exact Nat.lt_succ_of_lt (length_stringBody h)
  · cases h

theorem length_dropWhile_le (p : Char → Bool) (data : List Char) : (data.dropWhile p).length ≤ data.length :=
  (dropWhile_suffix p).length_le

theorem length_consumeDigits (h : consumeDigits data = some rest) : rest.length ≤ data.length := by
  unfold consumeDigits at h
  split at h
  · cases h
  · cases h
    exact length_dropWhile_le _ _

theorem length_consumeInteger (hdigit : isDigit (char data))
    (h : consumeInteger data = some rest) : rest.length < data.length := by
  unfold consumeInteger at h
  split at h
  · next hzero =>
    cases h
    exact length_consume_lt hzero
  · cases data with
    | nil => exact absurd h (by simp [consumeDigits])
    | cons c data =>
      have hc : isDigit c = true := hdigit
      unfold consumeDigits at h
      rw [dropWhile_cons_of_pos hc] at h
      split at h
      · cases h
      · cases h
        exact Nat.lt_succ_of_le (length_dropWhile_le _ _)

theorem length_consumeFraction (h : consumeFraction data = some rest) : rest.length ≤ data.length := by
  unfold consumeFraction at h
  split at h
  · have := length_consumeDigits h
    rw [length_tail] at this
    omega
  · cases h
    exact Nat.le_refl _

theorem length_consumeExponent (h : consumeExponent data = some rest) : rest.length ≤ data.length := by
  unfold consumeExponent at h
  split at h
  · dsimp only at h
    split at h
    · cases h
    · have htail : ∀ digits : List Char, digits.length ≤ data.length →
          (if isDigit (char digits) = true then consumeDigits digits else none) = some rest →
          rest.length ≤ data.length := by
        intro digits hle h
        split at h
        · exact Nat.le_trans (length_consumeDigits h) hle
        · cases h
      split at h
      · exact htail _ (by simp only [length_tail]; omega) h
      · exact htail _ (by simp only [length_tail]; omega) h
  · cases h
    exact Nat.le_refl _

theorem length_consume_sign (original : List Char) :
    ((consume ['-'] original).getD original).length ≤ original.length := by
  cases h : consume ['-'] original with
  | none => exact Nat.le_refl _
  | some rest => exact Nat.le_of_lt (length_consume_lt h)

theorem length_consumeNumber (original : List Char) : (consumeNumber original).2.length ≤ original.length ∧
      ((consumeNumber original).1.isSome → (consumeNumber original).2.length < original.length) := by
  have hsign := length_consume_sign original
  have hword : ∀ {c token rest}, consume (c :: token) ((consume ['-'] original).getD original) = some rest →
      rest.length < original.length := fun h => Nat.lt_of_lt_of_le (length_consume_lt h) hsign
  unfold consumeNumber
  dsimp only
  split
  · next h => exact ⟨Nat.le_of_lt (hword h), fun _ => hword h⟩
  · split
    · next h => exact ⟨Nat.le_of_lt (hword h), fun _ => hword h⟩
    · split
      · next h => exact ⟨Nat.le_of_lt (hword h), fun _ => hword h⟩
      · split
        · exact ⟨hsign, fun h => absurd h (by simp)⟩
        · next hdigit =>
          split
          · next rest h =>
            obtain ⟨afterFraction, hfraction, hexponent⟩ := bind_eq_some_iff.mp h
            obtain ⟨afterInteger, hinteger, hfraction⟩ := bind_eq_some_iff.mp hfraction
            have h1 := length_consumeInteger (by simpa using (not_or.mp hdigit).2) hinteger
            have h2 := length_consumeFraction hfraction
            have h3 := length_consumeExponent hexponent
            exact ⟨by dsimp only; omega, fun _ => by dsimp only; omega⟩
          · exact ⟨Nat.le_refl _, fun h => absurd h (by simp)⟩

/-! ### What a token can be -/

def Token.IsValue : Token → Prop
  | .number _ | .string _ | .true | .false => True
  | _ => False

namespace Tokenizer

/-- After a complete value the tokenizer goes on in what is open, or has read its end. -/
def Goes (state : State) (type : ObjectType) : Prop := state = following type ∨ state = closed type

/-- Everything a call of `Next` can do, apart from what it reads. -/
inductive Advance (t t' : Tokenizer) : Token → Prop
  | startObject : t.state = .expectObjectStart ∨ t.state = .expectValue →
      t'.state = .expectField ∨ t'.state = .expectObjectEnd →
      t'.objectType = .object :: t.objectType → t'.data.length < t.data.length →
      Advance t t' .startObject
  | startArray : t.state = .expectValue → t'.state = .expectValue →
      t'.objectType = .array :: t.objectType → t'.data.length < t.data.length →
      Advance t t' .startArray
  | field {name : List Char} : t.state = .expectField → t'.state = .expectValue →
      t'.objectType = t.objectType → t'.data.length < t.data.length →
      Advance t t' (.field name)
  | value {token : Token} {type : ObjectType} {outer : List ObjectType} : token.IsValue →
      t.state = .expectValue → t.objectType = type :: outer → Goes t'.state type →
      t'.objectType = t.objectType → t'.data.length < t.data.length → Advance t t' token
  | finish {type : ObjectType} : t.state = closed type → t.objectType.tail = [] →
      t' = ⟨.expectEnd, t.data, []⟩ → Advance t t' (endToken type)
  | leave {type outerType : ObjectType} {outer : List ObjectType} : t.state = closed type →
      t.objectType.tail = outerType :: outer → Goes t'.state outerType →
      t'.objectType = outerType :: outer → t'.data.length < t.data.length →
      Advance t t' (endToken type)
  | closeFinish {type : ObjectType} : t.state = .expectValue → t.objectType = [type] →
      t'.state = .expectEnd → t'.objectType = [] → t'.data.length < t.data.length →
      Advance t t' (endToken type)
  | closeLeave {type outerType : ObjectType} {outer : List ObjectType} :
      t.state = .expectValue → t.objectType = type :: outerType :: outer →
      Goes t'.state outerType → t'.objectType = outerType :: outer →
      t'.data.length < t.data.length → Advance t t' (endToken type)
  | done : t.state = .expectEnd → t.data = [] → t' = t → Advance t t' .done

section

variable {token token' : Token} {objectType : List ObjectType} {data : List Char} {t t' : Tokenizer}

theorem openObject_spec (h : openObject objectType data = some (token, t')) :
    token = .startObject ∧ (t'.state = .expectField ∨ t'.state = .expectObjectEnd) ∧
      t'.objectType = .object :: objectType ∧ t'.data.length ≤ data.length := by
  obtain ⟨data1, hspace, h⟩ := bind_eq_some_iff.mp h
  have hlength := length_consumeWhitespace hspace
  split at h
  · next data2 hclose =>
    obtain ⟨data3, hspace2, h⟩ := bind_eq_some_iff.mp h
    have hlength2 := length_consume_lt hclose
    have hlength3 := length_consumeWhitespace hspace2
    cases h
    exact ⟨rfl, .inr rfl, rfl, by dsimp only; omega⟩
  · cases h
    exact ⟨rfl, .inl rfl, rfl, hlength⟩

theorem separate_spec {type : ObjectType} {outer : List ObjectType}
    (h : separate token (type :: outer) data = some (token', t')) :
    token' = token ∧ Goes t'.state type ∧ t'.objectType = type :: outer ∧ t'.data.length < data.length := by
  rw [separate] at h
  split at h
  · next data1 hcomma =>
    obtain ⟨data2, hspace, h⟩ := bind_eq_some_iff.mp h
    have hlength1 := length_consume_lt hcomma
    have hlength2 := length_consumeWhitespace hspace
    cases h
    exact ⟨rfl, .inl rfl, rfl, by dsimp only; omega⟩
  · obtain ⟨data1, hclose, h⟩ := bind_eq_some_iff.mp h
    obtain ⟨data2, hspace, h⟩ := bind_eq_some_iff.mp h
    have hlength1 := length_consume_lt hclose
    have hlength2 := length_consumeWhitespace hspace
    cases h
    exact ⟨rfl, .inr rfl, rfl, by dsimp only; omega⟩

theorem nextEnd_spec (h : nextEnd token objectType data = some (token', t')) :
    token' = token ∧ ((objectType.tail = [] ∧ t' = ⟨.expectEnd, data, []⟩) ∨
      ∃ type outer, objectType.tail = type :: outer ∧ Goes t'.state type ∧
        t'.objectType = type :: outer ∧ t'.data.length < data.length) := by
  unfold nextEnd at h
  split at h
  · next htail =>
    cases h
    exact ⟨rfl, .inl ⟨htail, rfl⟩⟩
  · next type outer htail =>
    obtain ⟨htoken, hgoes, htype, hlength⟩ := separate_spec h
    exact ⟨htoken, .inr ⟨type, outer, htail, hgoes, htype, hlength⟩⟩

theorem advance_value (token : Token) {data' : List Char} (hvalue : token.IsValue) (hstate : t.state = .expectValue)
    (hdata : data'.length ≤ t.data.length)
    (h : (do separate token t.objectType (← consumeWhitespace data')) = some (token', t')) :
    Advance t t' token' := by
  obtain ⟨data1, hspace, h⟩ := bind_eq_some_iff.mp h
  have hlength := length_consumeWhitespace hspace
  cases htype : t.objectType with
  | nil =>
    rw [htype] at h
    exact absurd h (by simp [separate])
  | cons type outer =>
    rw [htype] at h
    obtain ⟨rfl, hgoes, htype', hshorter⟩ := separate_spec h
    exact .value hvalue hstate htype hgoes (htype'.trans htype.symm) (by omega)

theorem advance_closing {data' : List Char} (hstate : t.state = .expectValue) (hdata : data'.length ≤ t.data.length)
    (h : nextClosing t.objectType data' = some (token', t')) : Advance t t' token' := by
  unfold nextClosing at h
  split at h
  · cases h
  · next type outer htype =>
    obtain ⟨data1, hclose, h⟩ := bind_eq_some_iff.mp h
    obtain ⟨data2, hspace, h⟩ := bind_eq_some_iff.mp h
    have hlength1 := length_consume_lt hclose
    have hlength2 := length_consumeWhitespace hspace
    obtain ⟨rfl, hend⟩ := nextEnd_spec h
    obtain hend | hend := hend
    · obtain ⟨houter, rfl⟩ := hend
      rw [htype, tail_cons] at houter
      rw [houter] at htype
      exact .closeFinish hstate htype rfl rfl (by dsimp only; omega)
    · obtain ⟨outerType, outer', houter, hgoes, htype', hshorter⟩ := hend
      rw [htype, tail_cons] at houter
      rw [houter] at htype
      exact .closeLeave hstate htype hgoes htype' (by omega)

theorem advance_nextValue (hstate : t.state = .expectValue)
    (h : nextValue t.objectType t.data = some (token, t')) : Advance t t' token := by
  unfold nextValue at h
  split at h
  · next data1 hopen =>
    have hlength := length_consume_lt hopen
    obtain ⟨rfl, hstate', htype, hlength'⟩ := openObject_spec h
    exact .startObject (.inr hstate) hstate' htype (by omega)
  split at h
  · next data1 hopen =>
    have hlength := length_consume_lt hopen
    obtain ⟨data2, hspace, h⟩ := bind_eq_some_iff.mp h
    have hlength' := length_consumeWhitespace hspace
    cases h
    exact .startArray hstate rfl rfl (by dsimp only; omega)
  split at h
  · next s data1 hstring =>
    exact advance_value (.string s) trivial hstate (Nat.le_of_lt (length_consumeString hstring)) h
  have hnumber := length_consumeNumber t.data
  split at h
  · next s data1 hresult =>
    rw [hresult] at hnumber
    exact advance_value (.number s) trivial hstate hnumber.1 h
  next data1 hresult =>
  rw [hresult] at hnumber
  have hdata : data1.length ≤ t.data.length := hnumber.1
  split at h
  · next data2 htrue =>
    have hlength := length_consume_lt htrue
    exact advance_value .true trivial hstate (by omega) h
  split at h
  · next data2 hfalse =>
    have hlength := length_consume_lt hfalse
    exact advance_value .false trivial hstate (by omega) h
  exact advance_closing hstate hdata h

theorem advance_nextEnd (type : ObjectType) (hstate : t.state = closed type)
    (h : nextEnd (endToken type) t.objectType t.data = some (token, t')) : Advance t t' token := by
  obtain ⟨rfl, hend⟩ := nextEnd_spec h
  obtain hend | hend := hend
  · exact .finish hstate hend.1 hend.2
  · obtain ⟨outerType, outer, htail, hgoes, htype, hlength⟩ := hend
    exact .leave hstate htail hgoes htype hlength

theorem advance (h : t.next = some (token, t')) : Advance t t' token := by
  unfold next at h
  cases hstate : t.state with
  | expectObjectStart =>
    rw [hstate] at h
    obtain ⟨data1, hopen, h⟩ := bind_eq_some_iff.mp h
    have hlength := length_consume_lt hopen
    obtain ⟨rfl, hstate', htype, hlength'⟩ := openObject_spec h
    exact .startObject (.inl hstate) hstate' htype (by omega)
  | expectField =>
    rw [hstate] at h
    obtain ⟨⟨s, data1⟩, hstring, h⟩ := bind_eq_some_iff.mp h
    obtain ⟨data2, hspace2, h⟩ := bind_eq_some_iff.mp h
    obtain ⟨data3, hcolon, h⟩ := bind_eq_some_iff.mp h
    obtain ⟨data4, hspace4, h⟩ := bind_eq_some_iff.mp h
    have h1 := length_consumeString hstring
    have h2 := length_consumeWhitespace hspace2
    have h3 := length_consume_lt hcolon
    have h4 := length_consumeWhitespace hspace4
    cases h
    exact .field hstate rfl rfl (by dsimp only; omega)
  | expectValue =>
    rw [hstate] at h
    exact advance_nextValue hstate h
  | expectArrayEnd =>
    rw [hstate] at h
    exact advance_nextEnd .array hstate h
  | expectObjectEnd =>
    rw [hstate] at h
    exact advance_nextEnd .object hstate h
  | expectEnd =>
    rw [hstate] at h
    dsimp only at h
    split at h
    · next hdata =>
      cases h
      exact .done hstate hdata rfl
    · cases h

end

/-- What is left to read. -/
def size (t : Tokenizer) : Nat := 2 * t.data.length + t.objectType.length

theorem size_lt {t t' : Tokenizer} {token : Token} (h : Advance t t' token) (htoken : token ≠ .done)
    (hopen : ∀ type, t.state = closed type → t.objectType ≠ []) : t'.size < t.size := by
  unfold size
  cases h with
  | startObject _ _ htype hlength | startArray _ _ htype hlength =>
    rw [htype, length_cons]
    omega
  | field _ _ htype hlength | value _ _ _ _ htype hlength =>
    rw [htype]
    omega
  | finish hstate _ ht =>
    have := length_pos_iff.mpr (hopen _ hstate)
    rw [ht, length_nil]
    dsimp only
    omega
  | leave _ htail _ htype hlength =>
    have := congrArg length htail
    rw [htype]
    rw [length_tail] at this
    omega
  | closeFinish _ _ _ htype hlength =>
    rw [htype, length_nil]
    omega
  | closeLeave _ htype _ htype' hlength =>
    rw [htype, htype', length_cons, length_cons, length_cons]
    omega
  | done => exact absurd rfl htoken

end Tokenizer

def tokens : Nat → Tokenizer → Option (List Token)
  | 0, _ => none
  | n + 1, t =>
    match t.next with
    | none => none
    | some (.done, _) => some []
    | some (token, t) => (tokens n t).map (token :: ·)

theorem tokens_succ_of_ne {t' : Tokenizer} (h : t.next = some (token, t')) (htoken : token ≠ .done) :
    tokens (n + 1) t = (tokens n t').map (token :: ·) := by
  rw [tokens, h]
  cases token with
  | done => exact absurd rfl htoken
  | _ => rfl

theorem runTokens_succ_of_ne {σ α : Type} {step : σ → Token → Option σ} {finish : σ → Option α}
    {t' : Tokenizer} {s : σ} (h : t.next = some (token, t'))
    (htoken : token ≠ .done) :
    runTokens step finish (n + 1) t s = (step s token).bind (runTokens step finish n t') := by
  rw [runTokens, h]
  cases token with
  | done => exact absurd rfl htoken
  | _ => rfl

/-- A loop over the tokens reads them all first, as far as what it returns goes. -/
theorem runTokens_eq_some {σ α : Type} {step : σ → Token → Option σ} {finish : σ → Option α} {s : σ} {a : α} :
    runTokens step finish n t s = some a ↔
      ∃ ts s', tokens n t = some ts ∧ ts.foldlM step s = some s' ∧ finish s' = some a := by
  induction n generalizing t s with
  | zero => simp [runTokens, tokens]
  | succ n ih =>
    cases h : t.next with
    | none => simp [runTokens, tokens, h]
    | some next =>
      obtain ⟨token, t'⟩ := next
      by_cases htoken : token = .done
      · subst htoken
        simp [runTokens, tokens, h]
      · rw [runTokens_succ_of_ne h htoken, tokens_succ_of_ne h htoken, bind_eq_some_iff]
        apply Iff.intro
        · intro hrun
          obtain ⟨s1, hstep, hrun⟩ := hrun
          obtain ⟨ts, s', hts, hfold, hfinish⟩ := ih.mp hrun
          refine ⟨token :: ts, s', by rw [hts]; rfl, ?_, hfinish⟩
          rw [foldlM_cons, hstep]
          exact hfold
        · intro hrun
          obtain ⟨ts, s', hts, hfold, hfinish⟩ := hrun
          obtain ⟨ts', hts', rfl⟩ := map_eq_some_iff.mp hts
          obtain ⟨s1, hstep, hfold⟩ := bind_eq_some_iff.mp hfold
          exact ⟨s1, hstep, ih.mpr ⟨ts', s', hts', hfold, hfinish⟩⟩

/-! ### The tokens are balanced -/

inductive Waiting : List ObjectType → List Frame → Prop
  | nil : Waiting [] []
  | object {types : List ObjectType} {frames : List Frame} {name : List Char}
      {fields : List (List Char × Option Document)} : Waiting types frames →
      Waiting (.object :: types) (.object fields (some name) :: frames)
  | array {types : List ObjectType} {frames : List Frame} {items : List Document} :
      types ≠ [] → Waiting types frames → Waiting (.array :: types) (.array items :: frames)

inductive Filled : ObjectType → List ObjectType → List Frame → Prop
  | object {types : List ObjectType} {frames : List Frame}
      {fields : List (List Char × Option Document)} : Waiting types frames →
      Filled .object types (.object fields none :: frames)
  | array {types : List ObjectType} {frames : List Frame} {items : List Document} :
      types ≠ [] → Waiting types frames → Filled .array types (.array items :: frames)

def InStep (t : Tokenizer) (r : Reader) : Prop :=
  match t.state with
  | .expectObjectStart => r.root = none ∧ t.objectType = [] ∧ r.frames = []
  | .expectField =>
    r.root = none ∧ ∃ types, t.objectType = .object :: types ∧ Filled .object types r.frames
  | .expectValue => r.root = none ∧ t.objectType ≠ [] ∧ Waiting t.objectType r.frames
  | .expectObjectEnd =>
    r.root = none ∧ ∃ types, t.objectType = .object :: types ∧ Filled .object types r.frames
  | .expectArrayEnd =>
    r.root = none ∧ ∃ types, t.objectType = .array :: types ∧ Filled .array types r.frames
  | .expectEnd => t.objectType = [] ∧ r.frames = [] ∧ ∃ fields, r.root = some (.object fields)

section

variable {t t' : Tokenizer} {r : Reader} {type : ObjectType} {types : List ObjectType}
  {frames : List Frame}

theorem Filled.waiting_array (h : Filled .array types frames) : Waiting (.array :: types) frames := by
  cases h with
  | array hne hwaiting => exact .array hne hwaiting

theorem InStep.of_filled (hgoes : Tokenizer.Goes t.state type) (htype : t.objectType = type :: types)
    (hroot : r.root = none) (hfilled : Filled type types r.frames) : InStep t r := by
  unfold InStep
  cases type with
  | object =>
    obtain h | h := hgoes
    · rw [h]
      exact ⟨hroot, types, htype, hfilled⟩
    · rw [h]
      exact ⟨hroot, types, htype, hfilled⟩
  | array =>
    obtain h | h := hgoes
    · rw [h]
      exact ⟨hroot, by simp [htype], htype ▸ hfilled.waiting_array⟩
    · rw [h]
      exact ⟨hroot, types, htype, hfilled⟩

theorem InStep.filled (h : InStep t r) (hstate : t.state = closed type) :
    ∃ types, t.objectType = type :: types ∧ Filled type types r.frames := by
  unfold InStep at h
  cases type with
  | object | array =>
    rw [hstate] at h
    exact h.2

theorem InStep.waiting (h : InStep t r) (hstate : t.state = .expectValue) : Waiting t.objectType r.frames := by
  unfold InStep at h
  rw [hstate] at h
  exact h.2.2

theorem InStep.root (h : InStep t r) (hstate : t.state ≠ .expectEnd) : r.root = none := by
  unfold InStep at h
  cases hs : t.state with
  | expectEnd => exact absurd hs hstate
  | _ =>
    rw [hs] at h
    exact h.1

theorem InStep.finished (hstate : t.state = .expectEnd) (htype : t.objectType = [])
    {fields : List (List Char × Option Document)} : InStep t ⟨[], some (.object fields)⟩ := by
  unfold InStep
  rw [hstate]
  exact ⟨htype, rfl, fields, rfl⟩

theorem complete_waiting (h : Waiting (type :: types) frames) (d : Document) :
    ∃ r, complete d frames = some r ∧ r.root = none ∧ Filled type types r.frames := by
  cases h with
  | object hwaiting => exact ⟨_, rfl, rfl, .object hwaiting⟩
  | array hne hwaiting => exact ⟨_, rfl, rfl, .array hne hwaiting⟩

theorem readStep_end (root : Option Document) (h : Filled type types frames ∨ Waiting (type :: types) frames) :
    ∃ d outer, Waiting types outer ∧ readStep ⟨frames, root⟩ (endToken type) = complete d outer ∧
      (types = [] → ∃ fields, d = .object fields) := by
  obtain h | h := h
  · cases h with
    | object hwaiting => exact ⟨_, _, hwaiting, rfl, fun _ => ⟨_, rfl⟩⟩
    | array hne hwaiting => exact ⟨_, _, hwaiting, rfl, fun h => absurd h hne⟩
  · cases h with
    | object hwaiting => exact ⟨_, _, hwaiting, rfl, fun _ => ⟨_, rfl⟩⟩
    | array hne hwaiting => exact ⟨_, _, hwaiting, rfl, fun h => absurd h hne⟩

theorem readStep_finish (h : Filled type [] r.frames ∨ Waiting [type] r.frames) (hstate : t.state = .expectEnd)
    (htype : t.objectType = []) : ∃ r', readStep r (endToken type) = some r' ∧ InStep t r' := by
  obtain ⟨d, outer, hwaiting, hread, hobject⟩ := readStep_end r.root h
  obtain ⟨fields, rfl⟩ := hobject rfl
  cases hwaiting
  exact ⟨_, hread, InStep.finished hstate htype⟩

theorem readStep_leave {outerType : ObjectType}
    (h : Filled type (outerType :: types) r.frames ∨ Waiting (type :: outerType :: types) r.frames)
    (hgoes : Tokenizer.Goes t.state outerType) (htype : t.objectType = outerType :: types) :
    ∃ r', readStep r (endToken type) = some r' ∧ InStep t r' := by
  obtain ⟨d, outer, hwaiting, hread, _⟩ := readStep_end r.root h
  obtain ⟨r', hr', hroot, hfilled⟩ := complete_waiting hwaiting d
  exact ⟨r', hread.trans hr', InStep.of_filled hgoes htype hroot hfilled⟩

theorem readStep_inStep {token : Token} (h : Tokenizer.Advance t t' token) (hr : InStep t r)
    (htoken : token ≠ .done) : ∃ r', readStep r token = some r' ∧ InStep t' r' := by
  cases h with
  | startObject hstate hstate' htype _ =>
    have hwaiting : Waiting t.objectType r.frames := by
      obtain hstate | hstate := hstate
      · unfold InStep at hr
        rw [hstate] at hr
        rw [hr.2.1, hr.2.2]
        exact .nil
      · exact hr.waiting hstate
    have hgoes : Tokenizer.Goes t'.state .object := hstate'
    exact ⟨⟨.object [] none :: r.frames, none⟩, rfl, InStep.of_filled hgoes htype rfl (.object hwaiting)⟩
  | startArray hstate hstate' htype _ =>
    have hwaiting := hr.waiting hstate
    have hne : t.objectType ≠ [] := by
      unfold InStep at hr
      rw [hstate] at hr
      exact hr.2.1
    refine ⟨_, rfl, ?_⟩
    unfold InStep
    rw [hstate', htype]
    exact ⟨rfl, by simp, .array hne hwaiting⟩
  | field hstate hstate' htype _ =>
    unfold InStep at hr
    rw [hstate] at hr
    obtain ⟨_, types, htypes, hfilled⟩ := hr
    obtain ⟨frames, root⟩ := r
    cases hfilled with
    | object hwaiting =>
      refine ⟨_, rfl, ?_⟩
      unfold InStep
      rw [hstate', htype, htypes]
      exact ⟨rfl, by simp, .object hwaiting⟩
  | value hvalue hstate htype hgoes htype' _ =>
    have hwaiting := htype ▸ hr.waiting hstate
    have hread : ∃ d, readStep r token = complete d r.frames := by
      cases token with
      | number | string | true | false => exact ⟨_, rfl⟩
      | _ => exact absurd hvalue id
    obtain ⟨d, hd⟩ := hread
    obtain ⟨r', hr', hroot, hfilled⟩ := complete_waiting hwaiting d
    exact ⟨r', hd.trans hr', InStep.of_filled hgoes (htype'.trans htype) hroot hfilled⟩
  | finish hstate htail ht =>
    obtain ⟨types, htypes, hfilled⟩ := hr.filled hstate
    rw [htypes, tail_cons] at htail
    subst htail
    subst ht
    exact readStep_finish (.inl hfilled) rfl rfl
  | leave hstate htail hgoes htype _ =>
    obtain ⟨types, htypes, hfilled⟩ := hr.filled hstate
    rw [htypes, tail_cons] at htail
    subst htail
    exact readStep_leave (.inl hfilled) hgoes htype
  | closeFinish hstate htype hstate' htype' _ =>
    exact readStep_finish (.inr (htype ▸ hr.waiting hstate)) hstate' htype'
  | closeLeave hstate htype hgoes htype' _ =>
    exact readStep_leave (.inr (htype ▸ hr.waiting hstate)) hgoes htype'
  | done => exact absurd rfl htoken

theorem InStep.new (data : List Char) : InStep (new data) ⟨[], none⟩ := ⟨rfl, rfl, rfl⟩

theorem closed_ne_expectEnd (type : ObjectType) : closed type ≠ .expectEnd := by
  cases type <;> simp [closed]

theorem endToken_ne_done (type : ObjectType) : endToken type ≠ .done := by
  cases type <;> simp [endToken]

theorem token_eq_done_iff {token : Token} (h : Tokenizer.Advance t t' token) :
    token = .done ↔ t.state = .expectEnd := by
  cases h with
  | startObject hstate => cases hstate <;> simp_all
  | startArray hstate | field hstate | done hstate => simp [hstate]
  | value hvalue hstate =>
    simp only [hstate, reduceCtorEq, iff_false]
    intro hdone
    exact absurd hvalue (by simp [hdone, Token.IsValue])
  | finish hstate | leave hstate => simp [hstate, closed_ne_expectEnd, endToken_ne_done]
  | closeFinish hstate | closeLeave hstate => simp [hstate, endToken_ne_done]

theorem tokens_of_le (hr : InStep t r) {n m : Nat} (hn : t.size < n) (hm : t.size < m) : tokens n t = tokens m t := by
  induction n generalizing t r m with
  | zero => exact absurd hn (Nat.not_lt_zero _)
  | succ n ih =>
    cases m with
    | zero => exact absurd hm (Nat.not_lt_zero _)
    | succ m =>
      cases h : t.next with
      | none => rw [tokens, tokens, h]
      | some next =>
        obtain ⟨token, t'⟩ := next
        by_cases htoken : token = .done
        · subst htoken
          rw [tokens, tokens, h]
        · have hadvance := advance h
          have hopen : ∀ type, t.state = closed type → t.objectType ≠ [] := by
            intro type hstate
            obtain ⟨types, htypes, _⟩ := hr.filled hstate
            simp [htypes]
          have hsize := size_lt hadvance htoken hopen
          obtain ⟨r', _, hr'⟩ := readStep_inStep hadvance hr htoken
          have hrest : tokens n t' = tokens m t' := ih hr' (by omega) (by omega)
          rw [tokens_succ_of_ne h htoken, tokens_succ_of_ne h htoken, hrest]

end

/-! ### The tokens of a document -/

mutual

def Document.tokens : Document → List Token
  | .literal value => [value.token]
  | .string text => [.string text]
  | .array items => .startArray :: (itemsTokens items ++ [.endArray])
  | .object fields => .startObject :: (fieldsTokens fields ++ [.endObject])

def itemsTokens : List Document → List Token
  | [] => []
  | item :: items => item.tokens ++ itemsTokens items

def fieldsTokens : List (List Char × Option Document) → List Token
  | [] => []
  | (name, none) :: fields => .field name :: fieldsTokens fields
  | (name, some d) :: fields => .field name :: (d.tokens ++ fieldsTokens fields)

end

theorem itemsTokens_append (items items' : List Document) :
    itemsTokens (items ++ items') = itemsTokens items ++ itemsTokens items' := by
  induction items with
  | nil => simp [itemsTokens]
  | cons item items ih => simp [itemsTokens, ih]

theorem fieldsTokens_append (fields fields' : List (List Char × Option Document)) :
    fieldsTokens (fields ++ fields') = fieldsTokens fields ++ fieldsTokens fields' := by
  induction fields with
  | nil => simp [fieldsTokens]
  | cons field fields ih =>
    obtain ⟨name, value⟩ := field
    cases value <;> simp [fieldsTokens, ih]

def Frame.tokens : Frame → List Token
  | .object fields pending => .startObject :: (fieldsTokens fields ++ (pending.map Token.field).toList)
  | .array items => .startArray :: itemsTokens items

def framesTokens : List Frame → List Token
  | [] => []
  | frame :: frames => framesTokens frames ++ frame.tokens

def Reader.tokens (r : Reader) : List Token :=
  framesTokens r.frames ++ (r.root.map Document.tokens).getD []

theorem tokens_complete {d : Document} {frames : List Frame}
    (h : complete d frames = some r) : r.tokens = framesTokens frames ++ d.tokens := by
  unfold complete at h
  split at h
  · cases h
    rfl
  · cases h
    simp [Reader.tokens, framesTokens, Frame.tokens, fieldsTokens_append, fieldsTokens]
  · cases h
  · cases h
    simp [Reader.tokens, framesTokens, Frame.tokens, itemsTokens_append, itemsTokens]

theorem tokens_readStep {r' : Reader} (hroot : r.root = none)
    (h : readStep r token = some r') : r'.tokens = r.tokens ++ [token] := by
  obtain ⟨frames, root⟩ := r
  cases hroot
  cases token with
  | startObject =>
    cases h
    simp [Reader.tokens, framesTokens, Frame.tokens, fieldsTokens]
  | startArray =>
    cases h
    simp [Reader.tokens, framesTokens, Frame.tokens, itemsTokens]
  | endObject =>
    simp only [readStep] at h
    split at h
    · rw [tokens_complete h]
      rename_i pending _
      cases pending <;>
        simp [Reader.tokens, framesTokens, Frame.tokens, Document.tokens, closeFields, fieldsTokens_append, fieldsTokens]
    · cases h
  | endArray =>
    simp only [readStep] at h
    split at h
    · rw [tokens_complete h]
      simp [Reader.tokens, framesTokens, Frame.tokens, Document.tokens]
    · cases h
  | field name =>
    simp only [readStep] at h
    split at h
    · cases h
      simp [Reader.tokens, framesTokens, Frame.tokens]
    · cases h
  | number | true | false =>
    rw [tokens_complete h]
    simp [Reader.tokens, Document.tokens, Literal.token]
  | string text =>
    rw [tokens_complete h]
    simp [Reader.tokens, Document.tokens]
  | done => exact absurd h (by simp [readStep])

theorem foldlM_readStep {ts : List Token} (hr : InStep t r) (h : tokens n t = some ts) :
    ∃ fields, ts.foldlM readStep r = some ⟨[], some (.object fields)⟩ ∧
      (Document.object fields).tokens = r.tokens ++ ts := by
  induction n generalizing t r ts with
  | zero => exact absurd h (by simp [tokens])
  | succ n ih =>
    cases hnext : t.next with
    | none =>
      rw [tokens, hnext] at h
      cases h
    | some next =>
      obtain ⟨token, t'⟩ := next
      have hadvance := advance hnext
      by_cases htoken : token = .done
      · subst htoken
        rw [tokens, hnext] at h
        cases h
        unfold InStep at hr
        rw [(token_eq_done_iff hadvance).mp rfl] at hr
        obtain ⟨_, hframes, fields, hroot⟩ := hr
        obtain ⟨frames, root⟩ := r
        cases hframes
        cases hroot
        exact ⟨fields, rfl, by simp [Reader.tokens, framesTokens]⟩
      · rw [tokens_succ_of_ne hnext htoken] at h
        obtain ⟨ts', hts', rfl⟩ := map_eq_some_iff.mp h
        obtain ⟨r', hread, hr'⟩ := readStep_inStep hadvance hr htoken
        obtain ⟨fields, hfold, htokens⟩ := ih hr' hts'
        refine ⟨fields, ?_, ?_⟩
        · rw [foldlM_cons, hread]
          exact hfold
        · rw [htokens, tokens_readStep (hr.root (mt (token_eq_done_iff hadvance).mpr htoken)) hread,
            append_assoc]
          rfl

/-- A text without errors is one object, and its tokens are the tokens of that object. -/
theorem tokens_eq_document {ts : List Token} (h : tokens (tokenBound data) (new data) = some ts) :
    ∃ fields, document data = some (.object fields) ∧ ts = (Document.object fields).tokens := by
  obtain ⟨fields, hfold, htokens⟩ := foldlM_readStep (InStep.new data) h
  exact ⟨fields, runTokens_eq_some.mpr ⟨ts, _, h, hfold, rfl⟩, htokens.symm⟩

theorem tokens_of_document {d : Document} (h : document data = some d) : ∃ fields, d = .object fields ∧
      tokens (tokenBound data) (new data) = some (Document.object fields).tokens := by
  obtain ⟨ts, s, hts, hfold, hfinish⟩ := runTokens_eq_some.mp h
  obtain ⟨fields, hdocument, rfl⟩ := tokens_eq_document hts
  exact ⟨fields, some.inj (h.symm.trans hdocument), hts⟩

end RobotCode.Json
