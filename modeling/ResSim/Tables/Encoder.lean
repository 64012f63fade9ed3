import ResSim.Lib.Json

/-!
# The JSON encoder

`myJSONEncoder` indents lists and dictionaries down to a depth of `maxindent` and writes deeper
ones on one line. Whatever `indent` and `maxindent` are, the text stands for the value, so the
white space is only for the reader.
-/

namespace ResSim

/-- What the encoder of strings does with a text that has nothing to escape. -/
def PutsInQuotes (encoder : Text → Text) : Prop :=
  ∀ s, IsPlain s → (∀ c ∈ s, c.toNat < 127) → encoder s = '"' :: (s ++ ['"'])

section Encoder

-- `_encoder`, which writes strings
variable (encoder : Text → Text)

-- `indent` blanks for each level; comparing a level with `maxindent=None` gives `False`
variable (indent : Option ℕ) (maxindent : Option ℤ)

/-- `newline_indent` at a level. -/
def newlineIndent (level : ℕ) : Text :=
  match indent, maxindent with
  | some n, some m => if (level : ℤ) < m then '\n' :: List.replicate (n * level) ' ' else []
  | _, _ => []

mutual

/-- `_iterencode(o, _current_indent_level)`, the chunks put together. The keys of a dictionary are
numbers and become strings. -/
def iterencode (level : ℕ) : Data ℤ → Text
  | .num n => intText n
  | .arr [] => ['[', ']']
  | .arr (v :: l) =>
    '[' :: (newlineIndent indent maxindent (level + 1) ++
      (iterencode (level + 1) v ++ (iterencodeTail (level + 1) l ++
        (newlineIndent indent maxindent level ++ [']']))))
  | .obj [] => ['\x7b', '\x7d']
  | .obj ((k, v) :: ms) =>
    '\x7b' :: (newlineIndent indent maxindent (level + 1) ++
      (encoder (intText k) ++ ": ".toList ++ (iterencode (level + 1) v ++
        (iterencodeMembers (level + 1) ms ++ (newlineIndent indent maxindent level ++ ['\x7d'])))))

/-- The elements of a list behind the first one. -/
def iterencodeTail (level : ℕ) : List (Data ℤ) → Text
  | [] => []
  | v :: l => ", ".toList ++ (newlineIndent indent maxindent level ++
      (iterencode level v ++ iterencodeTail level l))

/-- The members of a dictionary behind the first one. -/
def iterencodeMembers (level : ℕ) : List (ℤ × Data ℤ) → Text
  | [] => []
  | (k, v) :: ms => ", ".toList ++ (newlineIndent indent maxindent level ++
      (encoder (intText k) ++ ": ".toList ++
        (iterencode level v ++ iterencodeMembers level ms)))

end

end Encoder

section Lexes

variable {encoder : Text → Text} {indent : Option ℕ} {maxindent : Option ℤ} {level : ℕ}
  {ts : List Token} {b t r : Text}

lemma lexes_blanks (hb : ∀ c ∈ b, isBlank c = true) (h : Lexes ts t) : Lexes ts (b ++ t) := by
  induction b with
  | nil => exact h
  | cons c b ih =>
    exact (ih (fun x hx => hb x (List.mem_cons_of_mem c hx))).blank (hb c List.mem_cons_self)

lemma noDigit_blanks (hb : ∀ c ∈ b, isBlank c = true) (h : NoDigit t) : NoDigit (b ++ t) := by
  cases b with
  | nil => exact h
  | cons c b =>
    rintro x hx
    obtain rfl := Option.some.inj hx
    have hc := hb c List.mem_cons_self
    by_contra hd
    rw [Bool.not_eq_false] at hd
    rw [not_isBlank (by rw [hd, Bool.true_or])] at hc
    cases hc

lemma newlineIndent_blanks : ∀ c ∈ newlineIndent indent maxindent level, isBlank c = true := by
  intro c hc
  unfold newlineIndent at hc
  split at hc
  · split at hc
    · rcases List.mem_cons.mp hc with rfl | hc
      · rfl
      · rw [(List.mem_replicate.mp hc).2]
        rfl
    · cases hc
  · cases hc

lemma lexes_newline (indent : Option ℕ) (maxindent : Option ℤ) (level : ℕ) (h : Lexes ts t) :
    Lexes ts (newlineIndent indent maxindent level ++ t) :=
  lexes_blanks newlineIndent_blanks h

lemma lexes_space (h : Lexes ts t) : Lexes ts (' ' :: t) := h.blank rfl

/-- `", "` and a new line. -/
lemma lexes_separator (indent : Option ℕ) (maxindent : Option ℤ) (level : ℕ) (h : Lexes ts t) :
    Lexes (.comma :: ts) (", ".toList ++ (newlineIndent indent maxindent level ++ t)) :=
  (lexes_space (lexes_newline indent maxindent level h)).token .comma trivial

lemma isPlain_intText (n : ℤ) : IsPlain (intText n) := by
  have hplain : ∀ c : Char, (c.isDigit || c = '-') = true → c ≠ '"' ∧ c ≠ '\\' ∧ 32 ≤ c.toNat := by
    intro c hc
    refine ⟨?_, ?_, ?_⟩
    · rintro rfl
      exact absurd hc (by decide)
    · rintro rfl
      exact absurd hc (by decide)
    · rcases Bool.or_eq_true _ _ ▸ hc with hc | hc
      · have hle := (Char.isDigit_iff_toNat.mp hc).1
        have hzero : '0'.toNat = 48 := rfl
        omega
      · rw [of_decide_eq_true hc]
        decide
  obtain ⟨c, ds, htext, hc, hds⟩ := exists_intText n
  intro x hx
  rw [htext] at hx
  rcases List.mem_cons.mp hx with rfl | hx
  · exact hplain x hc
  · exact hplain x (by rw [hds x hx, Bool.true_or])

lemma PutsInQuotes.intText (hquote : PutsInQuotes encoder) (n : ℤ) :
    encoder (intText n) = '"' :: (ResSim.intText n ++ ['"']) := by
  refine hquote _ (isPlain_intText n) fun c hc => ?_
  obtain ⟨d, ds, htext, hd, hds⟩ := exists_intText n
  have hdigit : c.isDigit = true ∨ c = '-' := by
    rw [htext] at hc
    rcases List.mem_cons.mp hc with rfl | hc
    · simpa using hd
    · exact .inl (hds c hc)
  rcases hdigit with hdigit | rfl
  · have hle := (Char.isDigit_iff_toNat.mp hdigit).2
    have hnine : '9'.toNat = 57 := rfl
    omega
  · decide

lemma noDigit_cons {c : Char} (h : c.isDigit = false) (t : Text) : NoDigit (c :: t) := by
  intro x hx
  rwa [← Option.some.inj hx]

variable (encoder indent maxindent) in
/-- The text of `v` is cut into the tokens of `v`, whatever follows. -/
def Encodes (v : Data ℤ) : Prop := ∀ level ts r, Lexes ts r → NoDigit r →
  Lexes ((v.mapKeys intText).tokens ++ ts) (iterencode encoder indent maxindent level v ++ r)

variable (level) in
lemma lexes_tail {l : List (Data ℤ)} (hl : ∀ v ∈ l, Encodes encoder indent maxindent v)
    (h : Lexes ts r) (hr : NoDigit r) :
    Lexes (tailTokens (mapKeysList intText l) ++ ts)
        (iterencodeTail encoder indent maxindent level l ++ r) ∧
      NoDigit (iterencodeTail encoder indent maxindent level l ++ r) := by
  induction l with
  | nil => exact ⟨h, hr⟩
  | cons v l ih =>
    obtain ⟨htail, hnd⟩ := ih fun w hw => hl w (List.mem_cons_of_mem v hw)
    have hv := hl v List.mem_cons_self level _ _ htail hnd
    have hcomma := lexes_separator indent maxindent level hv
    refine ⟨?_, noDigit_cons rfl _⟩
    simpa [tailTokens, mapKeysList, iterencodeTail] using hcomma

variable (level) in
lemma lexes_member (hquote : PutsInQuotes encoder) {k : ℤ} {v : Data ℤ}
    (hv : Encodes encoder indent maxindent v) (h : Lexes ts r) (hr : NoDigit r) :
    Lexes (.str (intText k) :: .colon :: ((v.mapKeys intText).tokens ++ ts))
      (encoder (intText k) ++ ": ".toList ++
        (iterencode encoder indent maxindent level v ++ r)) := by
  have hcolon := (lexes_space (hv level ts r h hr)).token .colon trivial
  have hkey := hcolon.token (.str (intText k)) (isPlain_intText k)
  rw [hquote.intText]
  simpa [Token.text] using hkey

variable (level) in
lemma lexes_members (hquote : PutsInQuotes encoder) {ms : List (ℤ × Data ℤ)}
    (hms : ∀ m ∈ ms, Encodes encoder indent maxindent m.2) (h : Lexes ts r) (hr : NoDigit r) :
    Lexes (memberTokens (mapKeysMembers intText ms) ++ ts)
        (iterencodeMembers encoder indent maxindent level ms ++ r) ∧
      NoDigit (iterencodeMembers encoder indent maxindent level ms ++ r) := by
  induction ms with
  | nil => exact ⟨h, hr⟩
  | cons m ms ih =>
    obtain ⟨htail, hnd⟩ := ih fun x hx => hms x (List.mem_cons_of_mem m hx)
    have hm := lexes_member level hquote (k := m.1) (hms m List.mem_cons_self) htail hnd
    have hcomma := lexes_separator indent maxindent level hm
    refine ⟨?_, noDigit_cons rfl _⟩
    simpa [memberTokens, mapKeysMembers, iterencodeMembers] using hcomma

variable (indent maxindent) in
lemma encodes (hquote : PutsInQuotes encoder) (v : Data ℤ) :
    Encodes encoder indent maxindent v := by
  induction v using Data.induct with
  | num n =>
    intro level ts r h hr
    exact h.token (.num n) hr
  | arr l ih =>
    intro level ts r h hr
    have hclose : Lexes (.rbrack :: ts) (newlineIndent indent maxindent level ++ ']' :: r) :=
      lexes_newline indent maxindent level (h.token .rbrack trivial)
    have hnd : NoDigit (newlineIndent indent maxindent level ++ ']' :: r) :=
      noDigit_blanks newlineIndent_blanks (noDigit_cons rfl r)
    cases l with
    | nil => exact (h.token .rbrack trivial).token .lbrack trivial
    | cons v l =>
      obtain ⟨htail, hnd'⟩ := lexes_tail (level + 1)
        (fun w hw => ih w (List.mem_cons_of_mem v hw)) hclose hnd
      have hv := ih v List.mem_cons_self (level + 1) _ _ htail hnd'
      have hopen := (lexes_newline indent maxindent (level + 1) hv).token .lbrack trivial
      simpa [Data.mapKeys, mapKeysList, Data.tokens, iterencode, Token.text] using hopen
  | obj ms ih =>
    intro level ts r h hr
    have hclose : Lexes (.rbrace :: ts) (newlineIndent indent maxindent level ++ '\x7d' :: r) :=
      lexes_newline indent maxindent level (h.token .rbrace trivial)
    have hnd : NoDigit (newlineIndent indent maxindent level ++ '\x7d' :: r) :=
      noDigit_blanks newlineIndent_blanks (noDigit_cons rfl r)
    cases ms with
    | nil => exact (h.token .rbrace trivial).token .lbrace trivial
    | cons m ms =>
      obtain ⟨htail, hnd'⟩ := lexes_members (level + 1) hquote
        (fun x hx => ih x (List.mem_cons_of_mem m hx)) hclose hnd
      have hm := lexes_member (level + 1) hquote (k := m.1) (ih m List.mem_cons_self) htail hnd'
      have hopen := (lexes_newline indent maxindent (level + 1) hm).token .lbrace trivial
      simpa [Data.mapKeys, mapKeysMembers, Data.tokens, iterencode, Token.text] using hopen

end Lexes

section Written

variable (encoder : Text → Text) (indent : Option ℕ) (maxindent : Option ℤ) (sep : Text)

/-- Writes one dictionary: the first one behind an opening bracket, every other one behind
`sep`. -/
def writeDict (state : Bool × Text) (dct : Data ℤ) : Bool × Text :=
  (false, state.2 ++ ((if state.1 then "[\n".toList else sep) ++
    iterencode encoder indent maxindent 0 dct))

/-- All that is written to `args.writetable`. -/
def writtenText (dcts : List (Data ℤ)) : Text :=
  (dcts.foldl (writeDict encoder indent maxindent sep) (true, [])).2 ++ "]\n".toList

variable {encoder indent maxindent sep}

lemma foldl_writeDict (dcts : List (Data ℤ)) (t : Text) :
    (dcts.foldl (writeDict encoder indent maxindent sep) (false, t)).2 =
      t ++ dcts.flatMap (fun d => sep ++ iterencode encoder indent maxindent 0 d) := by
  induction dcts generalizing t with
  | nil => simp
  | cons d dcts ih =>
    rw [List.foldl_cons, List.flatMap_cons, ← List.append_assoc, ← ih]
    rfl

variable (indent maxindent) in
lemma lexes_dicts (hquote : PutsInQuotes encoder) {b : Text} (hb : ∀ c ∈ b, isBlank c = true)
    (dcts : List (Data ℤ)) :
    Lexes (tailTokens (dcts.map (Data.mapKeys intText)) ++ [.rbrack])
        (dcts.flatMap (fun d => ',' :: b ++ iterencode encoder indent maxindent 0 d) ++
          "]\n".toList) ∧
      NoDigit (dcts.flatMap (fun d => ',' :: b ++ iterencode encoder indent maxindent 0 d) ++
        "]\n".toList) := by
  induction dcts with
  | nil => exact ⟨(Lexes.nil.blank (c := '\n') rfl).token .rbrack trivial, noDigit_cons rfl _⟩
  | cons d dcts ih =>
    have hd := encodes indent maxindent hquote d 0 _ _ ih.1 ih.2
    have hcomma := (lexes_blanks hb hd).token .comma trivial
    refine ⟨?_, noDigit_cons rfl _⟩
    simpa [tailTokens, Token.text] using hcomma

variable (indent maxindent) in
/-- The text stands for the list of the dictionaries. -/
theorem writtenText_isJson (hquote : PutsInQuotes encoder) {b : Text}
    (hb : ∀ c ∈ b, isBlank c = true) {dcts : List (Data ℤ)}
    (hne : dcts ≠ []) (hu : ∀ d ∈ dcts, d.Unique) :
    IsJson (writtenText encoder indent maxindent (',' :: b) dcts)
      (.arr (dcts.map (Data.mapKeys intText))) := by
  constructor
  · obtain ⟨d, dcts, rfl⟩ := List.exists_cons_of_ne_nil hne
    obtain ⟨htail, hnd⟩ := lexes_dicts indent maxindent hquote hb dcts
    have hd := encodes indent maxindent hquote d 0 _ _ htail hnd
    have hopen := (hd.blank (c := '\n') rfl).token .lbrack trivial
    have htext : writtenText encoder indent maxindent (',' :: b) (d :: dcts) =
        '[' :: '\n' :: (iterencode encoder indent maxindent 0 d ++
          (dcts.flatMap (fun d => ',' :: b ++ iterencode encoder indent maxindent 0 d) ++
            "]\n".toList)) := by
      unfold writtenText
      rw [List.foldl_cons, writeDict, foldl_writeDict]
      simp
    rw [htext]
    simpa [Data.tokens, Token.text] using hopen
  · unfold Data.Unique
    rw [uniqueList_iff, List.forall_mem_map]
    exact fun d hd => (hu d hd).mapKeys intText_injective

end Written

end ResSim
