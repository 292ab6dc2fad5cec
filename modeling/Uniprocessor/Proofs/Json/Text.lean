import Uniprocessor.Json.Printer
import Uniprocessor.Json.Reader
import Uniprocessor.Proofs.Decimal.Spelling

/-!
# Written values are read back

What is written for a value is cut into the tokens of the value, and these are put together to the
value again.  Between two tokens the layout is free, except that a word or a number goes on until
something comes that cannot be part of it; so what comes next has to be known before the token is, and
the statements about parts of a text speak of all that may follow them.

The value has to be *clean*: its literals are as the number grammar wants them, and its strings spell
texts.  A value that a program makes up may have a literal without digits, and two halves of a
surrogate pair that stand in a string one after the other would be read as one character.

* `Json.Clean`: the values that are written faithfully;
* `Json.scanFrom_chars`: the text of a value is cut into its tokens;
* `Json.Reading.run?_tokens`: the tokens of a value are put together to it;
* `Json.parse?_pretty`: **the text of a clean value is read as the value**.
-/

namespace Uniprocessor.Json

open Token (scanFrom)

/-! ## Clean values -/

/-- Code points that are characters. -/
def Spelled (points : List Nat) : Prop :=
  ∀ p ∈ points, p.isValidChar

mutual

/-- A value whose literals are proper and whose strings are texts. -/
def Clean : Json → Prop
  | .null => True
  | .bool _ => True
  | .number l => l.Proper
  | .string s => Spelled s
  | .array vs => AllClean vs
  | .object fs => FieldsClean fs

/-- The same for all items of an array. -/
def AllClean : List Json → Prop
  | [] => True
  | v :: vs => Clean v ∧ AllClean vs

/-- The same for all fields of an object. -/
def FieldsClean : List (List Nat × Json) → Prop
  | [] => True
  | f :: fs => FieldClean f ∧ FieldsClean fs

/-- The same for a field. -/
def FieldClean : List Nat × Json → Prop
  | (name, v) => Spelled name ∧ Clean v

end

theorem allClean_iff {vs : List Json} : AllClean vs ↔ ∀ v ∈ vs, Clean v := by
  induction vs with
  | nil => simp [AllClean]
  | cons v vs ih => simp [AllClean, ih]

theorem fieldsClean_iff {fs : List (List Nat × Json)} :
    FieldsClean fs ↔ ∀ f ∈ fs, Spelled f.1 ∧ Clean f.2 := by
  induction fs with
  | nil => simp [FieldsClean]
  | cons f fs ih =>
    obtain ⟨name, v⟩ := f
    simp [FieldsClean, FieldClean, ih]

/-! ## The tokens of a value -/

mutual

/-- The tokens a value consists of. -/
def tokens : Json → List Token
  | .null => [.null]
  | .bool b => [.bool b]
  | .number l => [.number l]
  | .string s => [.string s]
  | .array [] => [.openArray, .closeArray]
  | .array (v :: vs) => .openArray :: (tokens v ++ itemTokens vs ++ [.closeArray])
  | .object [] => [.openObject, .closeObject]
  | .object (f :: fs) => .openObject :: (fieldTokens f ++ laterFieldTokens fs ++ [.closeObject])

/-- The tokens of the items after the first. -/
def itemTokens : List Json → List Token
  | [] => []
  | v :: vs => .comma :: (tokens v ++ itemTokens vs)

/-- The tokens of a field. -/
def fieldTokens : List Nat × Json → List Token
  | (name, v) => .string name :: .colon :: tokens v

/-- The tokens of the fields after the first. -/
def laterFieldTokens : List (List Nat × Json) → List Token
  | [] => []
  | f :: fs => .comma :: (fieldTokens f ++ laterFieldTokens fs)

end

/-! ## Cutting a text -/

section Scan

variable {done : List Token} {mode next : Token.Mode} {c : Char} {cs rest : List Char}
  {seen : List Char} {token : Token} {points acc : List Nat} {p : Nat}

/-- A text that does not go on with a character of words and numbers. -/
def Fresh (cs : List Char) : Prop :=
  ∀ c ∈ cs.head?, Token.isPlain c = false

theorem fresh_nil : Fresh [] :=
  fun _ hc => absurd hc (by simp)

theorem fresh_cons (h : Token.isPlain c = false) : Fresh (c :: cs) := by
  intro d hd
  obtain rfl := Option.some.inj hd
  exact h

theorem scanFrom_cons (mode : Token.Mode) {ts : List Token} (h : Token.step? mode c = some (ts, next)) :
    scanFrom done mode (c :: cs) = scanFrom (ts.reverse ++ done) next cs := by
  rw [scanFrom, h]

/-- A character that completes no token. -/
theorem scanFrom_silent (mode next : Token.Mode) (h : Token.step? mode c = some ([], next)) :
    scanFrom done mode (c :: cs) = scanFrom done next cs :=
  scanFrom_cons mode h

/-- A character that is a token on its own. -/
theorem scanFrom_mark (token : Token) (h : Token.start? c = some ([token], .between)) :
    scanFrom done .between (c :: cs) = scanFrom (token :: done) .between cs :=
  scanFrom_cons .between h

/-- A blank between two tokens. -/
theorem scanFrom_blank (h : Token.isSpace c = true) :
    scanFrom done .between (c :: cs) = scanFrom done .between cs :=
  scanFrom_silent .between .between (if_pos h)

/-- The layout between two tokens is passed over. -/
theorem scanFrom_newline (level : Nat) :
    scanFrom done .between (newline level ++ rest) = scanFrom done .between rest := by
  rw [newline, List.cons_append, scanFrom_blank rfl]
  induction 2 * level with
  | zero => rfl
  | succ n ih => rw [List.replicate_succ, List.cons_append, scanFrom_blank rfl, ih]

/-! ### Words and numbers -/

/-- What follows a word or number does not matter, if it is not part of it. -/
theorem scanFrom_plain_end (h : Token.plain? seen.reverse = some token) (hrest : Fresh rest) :
    scanFrom done (.plain seen) rest = scanFrom (token :: done) .between rest := by
  cases rest with
  | nil => simp [scanFrom, Token.finish?, h]
  | cons c cs =>
    have hc : Token.isPlain c = false := hrest c rfl
    rw [scanFrom, scanFrom, Token.step?, Token.step?, hc, h]
    cases hstart : Token.start? c with
    | none => rfl
    | some next =>
      obtain ⟨ts, mode⟩ := next
      simp

theorem scanFrom_plain (h : Token.plain? (seen.reverse ++ cs) = some token)
    (hcs : ∀ c ∈ cs, Token.isPlain c = true) (hrest : Fresh rest) :
    scanFrom done (.plain seen) (cs ++ rest) = scanFrom (token :: done) .between rest := by
  induction cs generalizing seen with
  | nil =>
    rw [List.append_nil] at h
    exact scanFrom_plain_end h hrest
  | cons c cs ih =>
    have hc := hcs c List.mem_cons_self
    rw [List.cons_append, scanFrom_silent _ (.plain (c :: seen))
      (by simp [Token.step?, hc])]
    refine ih ?_ fun d hd => hcs d (List.mem_cons_of_mem _ hd)
    rw [List.reverse_cons, List.append_assoc]
    exact h

/-- Characters of words and numbers are neither blanks nor quotes. -/
theorem start?_of_isPlain (h : Token.isPlain c = true) :
    Token.start? c = some ([], .plain [c]) := by
  have hspace : Token.isSpace c = false := by
    by_contra hblank
    simp only [Token.isSpace, Bool.not_eq_false, Bool.or_eq_true, beq_iff_eq] at hblank
    rcases hblank with ((rfl | rfl) | rfl) | rfl <;> exact absurd h (by decide)
  have hquote : c ≠ '"' := by
    rintro rfl
    exact absurd h (by decide)
  simp [Token.start?, hspace, hquote, h]

/-- **A word or number is one token.** -/
theorem scanFrom_word (h : Token.plain? cs = some token) (hne : cs ≠ [])
    (hcs : cs.all Token.isPlain = true) (hrest : Fresh rest) :
    scanFrom done .between (cs ++ rest) = scanFrom (token :: done) .between rest := by
  rw [List.all_eq_true] at hcs
  cases cs with
  | nil => exact absurd rfl hne
  | cons c cs =>
    rw [List.cons_append,
      scanFrom_silent .between _ (start?_of_isPlain (hcs c List.mem_cons_self))]
    exact scanFrom_plain h (fun d hd => hcs d (List.mem_cons_of_mem _ hd)) hrest

theorem isPlain_of_isDigit (h : c.isDigit = true) : Token.isPlain c = true := by
  simp [Token.isPlain, Char.isAlphanum, h]

theorem isPlain_of_mem_chars {l : Literal} (h : l.Proper) (hc : c ∈ l.chars) :
    Token.isPlain c = true := by
  have hdigits : ∀ ds : List Char, ds.all Char.isDigit = true → ∀ d ∈ ds,
      Token.isPlain d = true := fun ds hds d hd => isPlain_of_isDigit (List.all_eq_true.mp hds d hd)
  rw [Literal.chars_eq, List.mem_append, List.mem_append, List.mem_append] at hc
  rcases hc with hc | hc | hc | hc
  · split at hc
    · obtain rfl := List.mem_singleton.mp hc
      rfl
    · exact absurd hc List.not_mem_nil
  · exact hdigits _ h.whole c hc
  · rw [Literal.fractionChars] at hc
    split at hc
    · exact absurd hc List.not_mem_nil
    · rcases List.mem_cons.mp hc with rfl | hc
      · rfl
      · exact hdigits _ h.fraction c hc
  · cases hexponent : l.exponent with
    | none => exact absurd (hexponent ▸ hc) (by simp [Literal.exponentChars])
    | some e =>
      obtain ⟨minus, ds⟩ := e
      rw [hexponent, Literal.exponentChars] at hc
      rcases List.mem_cons.mp hc with rfl | hc
      · rfl
      · rcases List.mem_cons.mp hc with rfl | hc
        · cases minus <;> rfl
        · exact hdigits _ (h.exponent minus ds hexponent).2 c hc

/-- A number starts with a sign or a digit, so it is none of the words. -/
theorem chars_head {l : Literal} (h : l.Proper) :
    ∃ c cs, l.chars = c :: cs ∧ (c = '-' ∨ c.isDigit = true) := by
  rw [Literal.chars_eq]
  cases l.negative with
  | true => exact ⟨_, _, rfl, Or.inl rfl⟩
  | false =>
    cases hwhole : l.whole with
    | nil => exact absurd hwhole h.nonempty
    | cons c cs =>
      exact ⟨c, _, rfl, Or.inr (List.all_eq_true.mp h.whole c (by simp [hwhole]))⟩

theorem plain?_chars {l : Literal} (h : l.Proper) : Token.plain? l.chars = some (.number l) := by
  obtain ⟨c, cs, hcs, hc⟩ := chars_head h
  have hword : ∀ d ds, (d == '-' || d.isDigit) = false → l.chars ≠ d :: ds := by
    rintro d ds hd heq
    obtain ⟨rfl, -⟩ := List.cons.inj (hcs.symm.trans heq)
    rcases hc with rfl | hdigit
    · exact absurd hd (by decide)
    · exact absurd hd (by simp [hdigit])
  rw [Token.plain?, if_neg, if_neg, if_neg, Literal.ofChars?_chars h]
  · rfl
  · exact fun heq => hword 'f' _ (by decide) (beq_iff_eq.mp heq)
  · exact fun heq => hword 't' _ (by decide) (beq_iff_eq.mp heq)
  · exact fun heq => hword 'n' _ (by decide) (beq_iff_eq.mp heq)

theorem scanFrom_number {l : Literal} (h : l.Proper) (hrest : Fresh rest) :
    scanFrom done .between (l.chars ++ rest) = scanFrom (.number l :: done) .between rest := by
  obtain ⟨c, cs, hcs, -⟩ := chars_head h
  exact scanFrom_word (plain?_chars h) (by simp [hcs])
    (List.all_eq_true.mpr fun d hd => isPlain_of_mem_chars h hd) hrest

/-! ### Strings -/

theorem hexValue?_hexDigit (h : p < 16) : Token.hexValue? (hexDigit p) = some p := by
  have hall : ∀ m < 16, Token.hexValue? (hexDigit m) = some m := by decide
  exact hall p h

/-- A unit that is no lower half of a surrogate pair stands for itself. -/
theorem pushUnit_of_lt (h : p < 0xDC00) : Token.pushUnit acc p = p :: acc := by
  cases acc with
  | nil => rfl
  | cons last acc =>
    rw [Token.pushUnit, if_neg]
    simp only [Bool.and_eq_true, decide_eq_true_eq]
    omega

/-- A four-digit escape is read as its value. -/
theorem scanFrom_unitEscape (h : p < 0xDC00) :
    scanFrom done (.inString acc) (unitEscape p ++ rest) =
      scanFrom done (.inString (p :: acc)) rest := by
  have hdigit : ∀ (value digits n : Nat) (cs : List Char), 1 < digits →
      scanFrom done (.hex acc value digits) (hexDigit (n % 16) :: cs) =
        scanFrom done (.hex acc (16 * value + n % 16) (digits - 1)) cs := by
    intro value digits n cs hdigits
    refine scanFrom_silent _ _ ?_
    rw [Token.step?, hexValue?_hexDigit (Nat.mod_lt n (by decide)), Option.map_some,
      if_neg (Nat.not_le_of_lt hdigits)]
  have hlast : ∀ (value n : Nat) (cs : List Char),
      scanFrom done (.hex acc value 1) (hexDigit (n % 16) :: cs) =
        scanFrom done (.inString (Token.pushUnit acc (16 * value + n % 16))) cs := by
    intro value n cs
    refine scanFrom_silent _ _ ?_
    rw [Token.step?, hexValue?_hexDigit (Nat.mod_lt n (by decide)), Option.map_some,
      if_pos (Nat.le_refl 1)]
  have hvalue : 16 * (16 * (16 * (16 * 0 + p / 4096 % 16) + p / 256 % 16) + p / 16 % 16) +
      p % 16 = p := by omega
  simp only [unitEscape, List.cons_append, List.nil_append]
  rw [scanFrom_silent _ (.escape acc) rfl, scanFrom_silent _ (.hex acc 0 4) rfl,
    hdigit 0 4 _ _ (by decide), hdigit _ 3 _ _ (by decide), hdigit _ 2 _ _ (by decide), hlast,
    hvalue, pushUnit_of_lt h]

/-- An escape of one letter is read as what it stands for. -/
theorem scanFrom_escape (hu : c ≠ 'u') (h : Token.escaped? c = some p) :
    scanFrom done (.inString acc) ('\\' :: c :: rest) =
      scanFrom done (.inString (p :: acc)) rest := by
  rw [scanFrom_silent _ (.escape acc) rfl,
    scanFrom_silent _ (.inString (p :: acc)) (by simp [Token.step?, hu, h])]

/-- A character is read as it is written. -/
theorem scanFrom_point (h : p.isValidChar) :
    scanFrom done (.inString acc) (pointChars p ++ rest) =
      scanFrom done (.inString (p :: acc)) rest := by
  unfold pointChars
  split
  · exact scanFrom_escape (by decide) rfl
  · exact scanFrom_escape (by decide) rfl
  · exact scanFrom_escape (by decide) rfl
  · exact scanFrom_escape (by decide) rfl
  · exact scanFrom_escape (by decide) rfl
  · exact scanFrom_escape (by decide) rfl
  · exact scanFrom_escape (by decide) rfl
  · rename_i hquote hbackslash _ _ _ _ _
    split
    · exact scanFrom_unitEscape (by omega)
    · rename_i hprintable
      obtain ⟨c, hchar, hpoint⟩ : ∃ c, char? p = some c ∧ c.toNat = p :=
        ⟨Char.ofNatAux p h, dif_pos h, rfl⟩
      have hne : ∀ d : Char, p ≠ d.toNat → c ≠ d := fun d hd heq =>
        hd (hpoint.symm.trans (congrArg Char.toNat heq))
      rw [hchar]
      refine scanFrom_silent _ _ ?_
      rw [Token.step?, if_neg (by simpa using hne '"' hquote),
        if_neg (by simpa using hne '\\' hbackslash), hpoint, if_neg hprintable]

theorem scanFrom_points (h : Spelled points) :
    scanFrom done (.inString acc) (points.flatMap pointChars ++ ('"' :: rest)) =
      scanFrom (.string (acc.reverse ++ points) :: done) .between rest := by
  induction points generalizing acc with
  | nil =>
    rw [List.append_nil]
    have hclose : Token.step? (.inString acc) '"' = some ([.string acc.reverse], .between) := rfl
    exact scanFrom_cons (.inString acc) hclose
  | cons p points ih =>
    rw [List.flatMap_cons, List.append_assoc, scanFrom_point (h p List.mem_cons_self),
      ih fun q hq => h q (List.mem_cons_of_mem _ hq), List.reverse_cons, List.append_assoc]
    rfl

/-- **A string is one token.** -/
theorem scanFrom_string (h : Spelled points) :
    scanFrom done .between (stringChars points ++ rest) =
      scanFrom (.string points :: done) .between rest := by
  have hpoints : scanFrom done (.inString []) (points.flatMap pointChars ++ ('"' :: rest)) =
      scanFrom (.string points :: done) .between rest := scanFrom_points h
  simp only [stringChars, List.cons_append, List.append_assoc, List.nil_append]
  exact (scanFrom_silent .between (.inString []) rfl).trans hpoints

/-! ### Whole values -/

theorem fresh_newline (level : Nat) : Fresh (newline level ++ rest) :=
  fresh_cons rfl

theorem fresh_itemChars (level : Nat) (vs : List Json) (hrest : Fresh rest) :
    Fresh (itemChars level vs ++ rest) := by
  cases vs with
  | nil =>
    rw [itemChars]
    exact hrest
  | cons v vs =>
    rw [itemChars]
    exact fresh_cons rfl

theorem fresh_laterFieldChars (level : Nat) (fs : List (List Nat × Json)) (hrest : Fresh rest) :
    Fresh (laterFieldChars level fs ++ rest) := by
  cases fs with
  | nil =>
    rw [laterFieldChars]
    exact hrest
  | cons f fs =>
    rw [laterFieldChars]
    exact fresh_cons rfl

mutual

/-- **The text of a value is cut into its tokens.** -/
theorem scanFrom_chars : ∀ (v : Json) (level : Nat) (done : List Token) (rest : List Char),
    Clean v → Fresh rest →
      scanFrom done .between (chars level v ++ rest) =
        scanFrom ((tokens v).reverse ++ done) .between rest
  | .null, level, done, rest, _, hrest => by
    rw [chars, tokens]
    exact scanFrom_word rfl (by decide) (by decide) hrest
  | .bool true, level, done, rest, _, hrest => by
    rw [chars, tokens]
    exact scanFrom_word rfl (by decide) (by decide) hrest
  | .bool false, level, done, rest, _, hrest => by
    rw [chars, tokens]
    exact scanFrom_word rfl (by decide) (by decide) hrest
  | .number l, level, done, rest, hclean, hrest => by
    rw [Clean] at hclean
    rw [chars, tokens]
    exact scanFrom_number hclean hrest
  | .string s, level, done, rest, hclean, hrest => by
    rw [Clean] at hclean
    rw [chars, tokens]
    exact scanFrom_string hclean
  | .array [], level, done, rest, _, _ => by
    rw [chars, tokens]
    exact (scanFrom_mark _ rfl).trans (scanFrom_mark _ rfl)
  | .array (v :: vs), level, done, rest, hclean, hrest => by
    rw [Clean, AllClean] at hclean
    simp only [chars, tokens, List.append_assoc, List.cons_append, List.nil_append,
      List.reverse_cons, List.reverse_append, List.reverse_nil]
    rw [scanFrom_mark .openArray rfl, scanFrom_newline,
      scanFrom_chars v _ _ _ hclean.1 (fresh_itemChars _ vs (fresh_newline level)),
      scanFrom_items vs _ _ _ hclean.2 (fresh_newline level), scanFrom_newline,
      scanFrom_mark .closeArray rfl]
  | .object [], level, done, rest, _, _ => by
    rw [chars, tokens]
    exact (scanFrom_mark _ rfl).trans (scanFrom_mark _ rfl)
  | .object (f :: fs), level, done, rest, hclean, hrest => by
    rw [Clean, FieldsClean] at hclean
    simp only [chars, tokens, List.append_assoc, List.cons_append, List.nil_append,
      List.reverse_cons, List.reverse_append, List.reverse_nil]
    rw [scanFrom_mark .openObject rfl, scanFrom_newline,
      scanFrom_field f _ _ _ hclean.1 (fresh_laterFieldChars _ fs (fresh_newline level)),
      scanFrom_laterFields fs _ _ _ hclean.2 (fresh_newline level), scanFrom_newline,
      scanFrom_mark .closeObject rfl]

theorem scanFrom_items : ∀ (vs : List Json) (level : Nat) (done : List Token) (rest : List Char),
    AllClean vs → Fresh rest →
      scanFrom done .between (itemChars level vs ++ rest) =
        scanFrom ((itemTokens vs).reverse ++ done) .between rest
  | [], level, done, rest, _, _ => by
    rw [itemChars, itemTokens]
    rfl
  | v :: vs, level, done, rest, hclean, hrest => by
    rw [AllClean] at hclean
    simp only [itemChars, itemTokens, List.append_assoc, List.cons_append, List.nil_append,
      List.reverse_cons, List.reverse_append]
    rw [scanFrom_mark .comma rfl, scanFrom_newline,
      scanFrom_chars v _ _ _ hclean.1 (fresh_itemChars level vs hrest),
      scanFrom_items vs _ _ _ hclean.2 hrest]

theorem scanFrom_field : ∀ (f : List Nat × Json) (level : Nat) (done : List Token)
    (rest : List Char), FieldClean f → Fresh rest →
      scanFrom done .between (fieldChars level f ++ rest) =
        scanFrom ((fieldTokens f).reverse ++ done) .between rest
  | (name, v), level, done, rest, hclean, hrest => by
    rw [FieldClean] at hclean
    simp only [fieldChars, fieldTokens, List.append_assoc, List.cons_append, List.nil_append,
      List.reverse_cons]
    rw [scanFrom_string hclean.1, scanFrom_mark .colon rfl, scanFrom_blank rfl,
      scanFrom_chars v _ _ _ hclean.2 hrest]

theorem scanFrom_laterFields : ∀ (fs : List (List Nat × Json)) (level : Nat) (done : List Token)
    (rest : List Char), FieldsClean fs → Fresh rest →
      scanFrom done .between (laterFieldChars level fs ++ rest) =
        scanFrom ((laterFieldTokens fs).reverse ++ done) .between rest
  | [], level, done, rest, _, _ => by
    rw [laterFieldChars, laterFieldTokens]
    rfl
  | f :: fs, level, done, rest, hclean, hrest => by
    rw [FieldsClean] at hclean
    simp only [laterFieldChars, laterFieldTokens, List.append_assoc, List.cons_append,
      List.nil_append, List.reverse_cons, List.reverse_append]
    rw [scanFrom_mark .comma rfl, scanFrom_newline,
      scanFrom_field f _ _ _ hclean.1 (fresh_laterFieldChars level fs hrest),
      scanFrom_laterFields fs _ _ _ hclean.2 hrest]

end

end Scan

/-! ## Putting tokens together -/

namespace Reading

variable {stack : List Frame} {t : Token} {ts : List Token} {items : List Json}
  {fields : List (List Nat × Json)}

theorem run?_cons (r : Reading) (t : Token) (ts : List Token) :
    r.run? (t :: ts) = (r.step? t).bind fun next => next.run? ts := by
  rw [run?]
  cases r.step? t <;> rfl

/-- The first item of an array is a value like any other, for no value begins with a bracket that
closes. -/
theorem run?_firstItem (v : Json) :
    run? ⟨stack, .firstItem⟩ (tokens v ++ ts) = run? ⟨stack, .value⟩ (tokens v ++ ts) := by
  cases v with
  | null => simp only [tokens, List.cons_append, run?_cons]; rfl
  | bool b => simp only [tokens, List.cons_append, run?_cons]; rfl
  | number l => simp only [tokens, List.cons_append, run?_cons]; rfl
  | string s => simp only [tokens, List.cons_append, run?_cons]; rfl
  | array vs => cases vs <;> simp only [tokens, List.cons_append, run?_cons] <;> rfl
  | object fs => cases fs <;> simp only [tokens, List.cons_append, run?_cons] <;> rfl

mutual

/-- **The tokens of a value are put together to it.** -/
theorem run?_tokens : ∀ (v : Json) (stack : List Frame) (ts : List Token),
    run? ⟨stack, .value⟩ (tokens v ++ ts) = (deliver stack v).bind fun next => next.run? ts
  | .null, stack, ts => by rw [tokens]; exact run?_cons _ _ _
  | .bool b, stack, ts => by rw [tokens]; exact run?_cons _ _ _
  | .number l, stack, ts => by rw [tokens]; exact run?_cons _ _ _
  | .string s, stack, ts => by rw [tokens]; exact run?_cons _ _ _
  | .array [], stack, ts => by
    rw [tokens]
    exact (run?_cons _ _ _).trans (run?_cons ⟨.array [] :: stack, .firstItem⟩ _ _)
  | .array (v :: vs), stack, ts => by
    simp only [tokens, List.cons_append, List.append_assoc, List.nil_append]
    rw [run?_cons]
    show run? ⟨.array [] :: stack, .firstItem⟩ _ = _
    rw [run?_firstItem, run?_tokens v]
    show run? ⟨.array [v] :: stack, .separator⟩ _ = _
    rw [run?_items vs, run?_cons]
    show ((deliver stack (.array (vs.reverse ++ [v]).reverse)).bind fun next => next.run? ts) = _
    rw [List.reverse_append, List.reverse_reverse]
    rfl
  | .object [], stack, ts => by
    rw [tokens]
    exact (run?_cons _ _ _).trans (run?_cons ⟨.object [] :: stack, .firstName⟩ _ _)
  | .object ((name, v) :: fs), stack, ts => by
    simp only [tokens, fieldTokens, List.cons_append, List.append_assoc, List.nil_append]
    rw [run?_cons]
    show run? ⟨.object [] :: stack, .firstName⟩ _ = _
    rw [run?_cons]
    show run? ⟨.field [] name :: stack, .colon⟩ _ = _
    rw [run?_cons]
    show run? ⟨.field [] name :: stack, .value⟩ _ = _
    rw [run?_tokens v]
    show run? ⟨.object [(name, v)] :: stack, .separator⟩ _ = _
    rw [run?_fields fs, run?_cons]
    show ((deliver stack (.object (fs.reverse ++ [(name, v)]).reverse)).bind
      fun next => next.run? ts) = _
    rw [List.reverse_append, List.reverse_reverse]
    rfl

theorem run?_items : ∀ (vs : List Json) (stack : List Frame) (items : List Json)
    (ts : List Token), run? ⟨.array items :: stack, .separator⟩ (itemTokens vs ++ ts) =
      run? ⟨.array (vs.reverse ++ items) :: stack, .separator⟩ ts
  | [], stack, items, ts => by rw [itemTokens]; rfl
  | v :: vs, stack, items, ts => by
    simp only [itemTokens, List.cons_append, List.append_assoc]
    rw [run?_cons]
    show run? ⟨.array items :: stack, .value⟩ _ = _
    rw [run?_tokens v]
    show run? ⟨.array (v :: items) :: stack, .separator⟩ _ = _
    rw [run?_items vs, List.reverse_cons, List.append_assoc]
    rfl

theorem run?_fields : ∀ (fs : List (List Nat × Json)) (stack : List Frame)
    (fields : List (List Nat × Json)) (ts : List Token),
    run? ⟨.object fields :: stack, .separator⟩ (laterFieldTokens fs ++ ts) =
      run? ⟨.object (fs.reverse ++ fields) :: stack, .separator⟩ ts
  | [], stack, fields, ts => by rw [laterFieldTokens]; rfl
  | (name, v) :: fs, stack, fields, ts => by
    simp only [laterFieldTokens, fieldTokens, List.cons_append, List.append_assoc]
    rw [run?_cons]
    show run? ⟨.object fields :: stack, .name⟩ _ = _
    rw [run?_cons]
    show run? ⟨.field fields name :: stack, .colon⟩ _ = _
    rw [run?_cons]
    show run? ⟨.field fields name :: stack, .value⟩ _ = _
    rw [run?_tokens v]
    show run? ⟨.object ((name, v) :: fields) :: stack, .separator⟩ _ = _
    rw [run?_fields fs, List.reverse_cons, List.append_assoc]
    rfl

end

end Reading

/-- **The text of a clean value is read as the value.** -/
theorem parse?_pretty {v : Json} (h : Clean v) : parse? v.pretty = some v := by
  have hscan : Token.scan (chars 0 v) = some (tokens v) := by
    have hchars := scanFrom_chars v 0 [] [] h fresh_nil
    rw [List.append_nil] at hchars
    rw [Token.scan, hchars, scanFrom, Token.finish?]
    simp
  have hread : Reading.start.run? (tokens v) = some ⟨[], .nothing v⟩ := by
    have htokens := Reading.run?_tokens v [] []
    rw [List.append_nil] at htokens
    exact htokens
  rw [parse?, pretty, String.toList_ofList, hscan]
  show (Reading.start.run? (tokens v)).bind Reading.result? = _
  rw [hread]
  rfl

end Uniprocessor.Json
