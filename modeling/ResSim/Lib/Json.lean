import Mathlib.Data.List.Nodup
import ResSim.Lib.Text

/-!
# JSON

Numbers, lists and dictionaries, and the texts that stand for them. A text is read in two steps:
`lex` makes tokens of it and `parse` a value of the tokens. Every text that stands for a value is
read as that value (`readJson_of_isJson`), so it stands for no other one.
-/

namespace ResSim

/-- Numbers, lists, and dictionaries with keys of the type `κ`. -/
inductive Data (κ : Type) where
  | num (n : ℤ)
  | arr (l : List (Data κ))
  | obj (ms : List (κ × Data κ))

/-- JSON values. Strings appear as keys only, and numbers are whole. -/
abbrev Json := Data Text

inductive Token where
  | lbrack
  | rbrack
  | lbrace
  | rbrace
  | comma
  | colon
  | num (n : ℤ)
  | str (s : Text)
deriving DecidableEq

section Values

variable {κ κ' : Type}

theorem Data.induct {P : Data κ → Prop} (num : ∀ n, P (.num n))
    (arr : ∀ l, (∀ v ∈ l, P v) → P (.arr l)) (obj : ∀ ms, (∀ m ∈ ms, P m.2) → P (.obj ms)) :
    ∀ v, P v
  | .num n => num n
  | .arr l => arr l (fun v _ => Data.induct num arr obj v)
  | .obj ms => obj ms (fun m _ => Data.induct num arr obj m.2)
termination_by v => sizeOf v
decreasing_by
  · rename_i hv
    have := List.sizeOf_lt_of_mem hv
    simp only [Data.arr.sizeOf_spec]
    omega
  · rename_i hm
    have := List.sizeOf_lt_of_mem hm
    have hpair : sizeOf m = 1 + sizeOf m.1 + sizeOf m.2 := by cases m; rfl
    simp only [Data.obj.sizeOf_spec]
    omega

mutual

/-- Changes the keys of all dictionaries. -/
def Data.mapKeys (f : κ → κ') : Data κ → Data κ'
  | .num n => .num n
  | .arr l => .arr (mapKeysList f l)
  | .obj ms => .obj (mapKeysMembers f ms)

def mapKeysList (f : κ → κ') : List (Data κ) → List (Data κ')
  | [] => []
  | v :: l => v.mapKeys f :: mapKeysList f l

def mapKeysMembers (f : κ → κ') : List (κ × Data κ) → List (κ' × Data κ')
  | [] => []
  | (k, v) :: ms => (f k, v.mapKeys f) :: mapKeysMembers f ms

end

mutual

/-- The tokens of a value. -/
def Data.tokens : Json → List Token
  | .num n => [.num n]
  | .arr [] => [.lbrack, .rbrack]
  | .arr (v :: l) => .lbrack :: (v.tokens ++ tailTokens l ++ [.rbrack])
  | .obj [] => [.lbrace, .rbrace]
  | .obj ((k, v) :: ms) =>
    .lbrace :: .str k :: .colon :: (v.tokens ++ memberTokens ms ++ [.rbrace])

/-- The elements of a list behind the first one. -/
def tailTokens : List Json → List Token
  | [] => []
  | v :: l => .comma :: (v.tokens ++ tailTokens l)

/-- The members of a dictionary behind the first one. -/
def memberTokens : List (Text × Json) → List Token
  | [] => []
  | (k, v) :: ms => .comma :: .str k :: .colon :: (v.tokens ++ memberTokens ms)

end

mutual

/-- No dictionary has a key twice. -/
def Data.Unique : Data κ → Prop
  | .num _ => True
  | .arr l => uniqueList l
  | .obj ms => (ms.map Prod.fst).Nodup ∧ uniqueMembers ms

def uniqueList : List (Data κ) → Prop
  | [] => True
  | v :: l => v.Unique ∧ uniqueList l

def uniqueMembers : List (κ × Data κ) → Prop
  | [] => True
  | (_, v) :: ms => v.Unique ∧ uniqueMembers ms

end

lemma mapKeysList_eq (f : κ → κ') (l : List (Data κ)) :
    mapKeysList f l = l.map (Data.mapKeys f) := by
  induction l with
  | nil => rfl
  | cons v l ih => rw [mapKeysList, ih, List.map_cons]

lemma mapKeysMembers_eq (f : κ → κ') (ms : List (κ × Data κ)) :
    mapKeysMembers f ms = ms.map (fun m => (f m.1, m.2.mapKeys f)) := by
  induction ms with
  | nil => rfl
  | cons m ms ih => rw [mapKeysMembers, ih, List.map_cons]

lemma uniqueList_iff {l : List (Data κ)} : uniqueList l ↔ ∀ v ∈ l, v.Unique := by
  induction l with
  | nil => simp [uniqueList]
  | cons v l ih => rw [uniqueList, ih, List.forall_mem_cons]

lemma uniqueMembers_iff {ms : List (κ × Data κ)} : uniqueMembers ms ↔ ∀ m ∈ ms, m.2.Unique := by
  induction ms with
  | nil => simp [uniqueMembers]
  | cons m ms ih => rw [uniqueMembers, ih, List.forall_mem_cons]

lemma Data.Unique.mapKeys {f : κ → κ'} (hf : Function.Injective f) {v : Data κ}
    (h : v.Unique) : (v.mapKeys f).Unique := by
  induction v using Data.induct with
  | num n => exact trivial
  | arr l ih =>
    unfold Data.Unique at h
    unfold Data.mapKeys Data.Unique
    rw [uniqueList_iff] at h ⊢
    rw [mapKeysList_eq, List.forall_mem_map]
    exact fun v hv => ih v hv (h v hv)
  | obj ms ih =>
    unfold Data.Unique at h
    unfold Data.mapKeys Data.Unique
    rw [uniqueMembers_iff] at h ⊢
    rw [mapKeysMembers_eq, List.forall_mem_map, List.map_map]
    refine ⟨?_, fun m hm => ih m hm (h.2 m hm)⟩
    have hkeys : ms.map (Prod.fst ∘ fun m => (f m.1, m.2.mapKeys f)) = (ms.map Prod.fst).map f := by
      rw [List.map_map]
      rfl
    rw [hkeys]
    exact h.1.map hf

end Values

section Lexing

/-- White space of JSON. -/
def isBlank (c : Char) : Bool := c = ' ' || c = '\n' || c = '\t' || c = '\r'

/-- A string that is written without escapes. -/
def IsPlain (s : Text) : Prop := ∀ c ∈ s, c ≠ '"' ∧ c ≠ '\\' ∧ 32 ≤ c.toNat

/-- The text of a token. -/
def Token.text : Token → Text
  | .lbrack => ['[']
  | .rbrack => [']']
  | .lbrace => ['\x7b']
  | .rbrace => ['\x7d']
  | .comma => [',']
  | .colon => [':']
  | .num n => intText n
  | .str s => '"' :: (s ++ ['"'])

/-- The text does not go on with a digit. -/
def NoDigit (t : Text) : Prop := ∀ c ∈ t.head?, c.isDigit = false

/-- What may follow a token: behind a number no digit. -/
def Token.Before (t : Text) : Token → Prop
  | .num _ => NoDigit t
  | .str s => IsPlain s
  | _ => True

/-- A text is cut into tokens, with white space between them. -/
inductive Lexes : List Token → Text → Prop
  | nil : Lexes [] []
  | blank {ts t c} (hc : isBlank c = true) (h : Lexes ts t) : Lexes ts (c :: t)
  | token {ts t} (tok : Token) (hb : tok.Before t) (h : Lexes ts t) :
      Lexes (tok :: ts) (tok.text ++ t)

/-- The text stands for the value. -/
def IsJson (t : Text) (v : Json) : Prop := Lexes v.tokens t ∧ v.Unique

/-- What the lexer is in the middle of. -/
inductive LexMode where
  | idle
  | num (acc : Text)
  | str (acc : Text)

/-- The next character outside of numbers and strings. -/
def lexIdle (c : Char) : Option (LexMode × List Token) :=
  if isBlank c then some (.idle, [])
  else if c.isDigit || c = '-' then some (.num [c], [])
  else if c = '"' then some (.str [], [])
  else if c = '[' then some (.idle, [.lbrack])
  else if c = ']' then some (.idle, [.rbrack])
  else if c = '\x7b' then some (.idle, [.lbrace])
  else if c = '\x7d' then some (.idle, [.rbrace])
  else if c = ',' then some (.idle, [.comma])
  else if c = ':' then some (.idle, [.colon])
  else none

/-- The next character. -/
def lexStep : LexMode → Char → Option (LexMode × List Token)
  | .idle, c => lexIdle c
  | .num acc, c =>
    if c.isDigit then some (.num (acc ++ [c]), [])
    else (readInt acc).bind (fun n => (lexIdle c).map (fun x => (x.1, .num n :: x.2)))
  | .str acc, c => if c = '"' then some (.idle, [.str acc]) else some (.str (acc ++ [c]), [])

/-- Cuts a text into tokens. -/
def lex : LexMode → Text → Option (List Token)
  | .idle, [] => some []
  | .num acc, [] => (readInt acc).map (fun n => [.num n])
  | .str _, [] => none
  | m, c :: t => (lexStep m c).bind (fun x => (lex x.1 t).map (fun ts => x.2 ++ ts))

variable {ts : List Token} {t : Text} {m m' : LexMode} {c : Char}

lemma lex_cons (h : lexStep m c = some (m', ts)) :
    lex m (c :: t) = (lex m' t).map (fun ts' => ts ++ ts') := by
  cases m <;> simp only [lex, h, Option.bind_some]

lemma lex_cons_nil (h : lexStep m c = some (m', [])) : lex m (c :: t) = lex m' t := by
  rw [lex_cons h]
  simp

lemma lex_str (s acc t : Text) (hs : IsPlain s) :
    lex (.str acc) (s ++ '"' :: t) = (lex .idle t).map (fun ts => .str (acc ++ s) :: ts) := by
  induction s generalizing acc with
  | nil =>
    have hstep : lexStep (.str acc) '"' = some (.idle, [.str acc]) := by simp [lexStep]
    rw [List.nil_append, List.append_nil, lex_cons hstep]
    rfl
  | cons c s ih =>
    have hstep : lexStep (.str acc) c = some (.str (acc ++ [c]), []) :=
      if_neg (hs c List.mem_cons_self).1
    rw [List.cons_append, lex_cons_nil hstep,
      ih (acc ++ [c]) (fun x hx => hs x (List.mem_cons_of_mem c hx)), List.append_assoc]
    rfl

lemma lex_num {acc ds t : Text} {n : ℤ} (hds : ∀ c ∈ ds, c.isDigit = true)
    (hn : readInt (acc ++ ds) = some n) (ht : NoDigit t) :
    lex (.num acc) (ds ++ t) = (lex .idle t).map (fun ts => .num n :: ts) := by
  induction ds generalizing acc with
  | nil =>
    rw [List.append_nil] at hn
    cases t with
    | nil => simp [lex, hn]
    | cons c t =>
      have hc : c.isDigit = false := ht c rfl
      rw [List.nil_append]
      simp only [lex, lexStep, hc, hn, Option.bind_some]
      cases hidle : lexIdle c with
      | none => simp
      | some x => simp [Option.map_map, Function.comp_def]
  | cons c ds ih =>
    have hstep : lexStep (.num acc) c = some (.num (acc ++ [c]), []) :=
      if_pos (hds c List.mem_cons_self)
    rw [List.cons_append, lex_cons_nil hstep]
    apply ih (fun x hx => hds x (List.mem_cons_of_mem c hx))
    rw [List.append_assoc]
    exact hn

/-- A number begins with a digit or a minus sign, which digits follow. -/
lemma exists_intText (n : ℤ) : ∃ c ds, intText n = c :: ds ∧ (c.isDigit || c = '-') = true ∧
    ∀ x ∈ ds, x.isDigit = true := by
  unfold intText
  split
  · exact ⟨'-', digits n.natAbs, rfl, rfl, fun x hx => isDigit_of_mem_digits hx⟩
  · obtain ⟨c, ds, hdig, hc⟩ := exists_digits n.natAbs
    refine ⟨c, ds, hdig, by rw [hc, Bool.true_or], fun x hx => ?_⟩
    exact isDigit_of_mem_digits (hdig ▸ List.mem_cons_of_mem c hx)

lemma not_isBlank (h : (c.isDigit || c = '-') = true) : isBlank c = false := by
  by_contra hb
  rw [Bool.not_eq_false] at hb
  unfold isBlank at hb
  simp only [Bool.or_eq_true, decide_eq_true_eq, or_assoc] at hb
  rcases hb with rfl | rfl | rfl | rfl <;> exact absurd h (by decide)

lemma lex_token (tok : Token) (hb : tok.Before t) :
    lex .idle (tok.text ++ t) = (lex .idle t).map (fun ts => tok :: ts) := by
  cases tok with
  | num n =>
    obtain ⟨c, ds, htext, hc, hds⟩ := exists_intText n
    have hstep : lexStep .idle c = some (.num [c], []) := by
      simp only [lexStep, lexIdle, not_isBlank hc, hc, if_true, Bool.false_eq_true, if_false]
    have hn : readInt ([c] ++ ds) = some n := by
      rw [List.singleton_append, ← htext, readInt_intText]
    have htok : (Token.num n).text = c :: ds := htext
    rw [htok, List.cons_append, lex_cons_nil hstep, lex_num hds hn hb]
  | str s =>
    have hstep : lexStep .idle '"' = some (.str [], []) := rfl
    have htok : (Token.str s).text = '"' :: (s ++ ['"']) := rfl
    rw [htok, List.cons_append, List.append_assoc, lex_cons_nil hstep]
    exact lex_str s [] t hb
  | lbrack => exact lex_cons (m := .idle) (c := '[') rfl
  | rbrack => exact lex_cons (m := .idle) (c := ']') rfl
  | lbrace => exact lex_cons (m := .idle) (c := '\x7b') rfl
  | rbrace => exact lex_cons (m := .idle) (c := '\x7d') rfl
  | comma => exact lex_cons (m := .idle) (c := ',') rfl
  | colon => exact lex_cons (m := .idle) (c := ':') rfl

lemma lex_of_lexes (h : Lexes ts t) : lex .idle t = some ts := by
  induction h with
  | nil => rfl
  | blank hc _ ih =>
    rw [← ih]
    exact lex_cons_nil (m := .idle) (if_pos hc)
  | token tok hb _ ih => rw [lex_token tok hb, ih, Option.map_some]

end Lexing

section Parsing

mutual

/-- Reads a value from the tokens, with `n` levels of calls at most. -/
def parseValue (n : ℕ) (ts : List Token) : Option (Json × List Token) :=
  match n, ts with
  | 0, _ => none
  | _ + 1, .num k :: ts => some (.num k, ts)
  | n + 1, .lbrack :: ts =>
    match ts with
    | .rbrack :: ts => some (.arr [], ts)
    | ts => (parseElements n ts).map (fun x => (.arr x.1, x.2))
  | n + 1, .lbrace :: ts =>
    match ts with
    | .rbrace :: ts => some (.obj [], ts)
    | ts => (parseMembers n ts).map (fun x => (.obj x.1, x.2))
  | _, _ => none

/-- Reads the elements of a list and its closing bracket. -/
def parseElements (n : ℕ) (ts : List Token) : Option (List Json × List Token) :=
  match n with
  | 0 => none
  | n + 1 => (parseValue n ts).bind (fun x =>
    match x.2 with
    | .comma :: ts => (parseElements n ts).map (fun y => (x.1 :: y.1, y.2))
    | .rbrack :: ts => some ([x.1], ts)
    | _ => none)

/-- Reads the members of a dictionary and its closing brace. -/
def parseMembers (n : ℕ) (ts : List Token) : Option (List (Text × Json) × List Token) :=
  match n, ts with
  | n + 1, .str k :: .colon :: ts => (parseValue n ts).bind (fun x =>
    match x.2 with
    | .comma :: ts => (parseMembers n ts).map (fun y => ((k, x.1) :: y.1, y.2))
    | .rbrace :: ts => some ([(k, x.1)], ts)
    | _ => none)
  | _, _ => none

end

/-- Reads a text. -/
def readJson (t : Text) : Option Json :=
  (lex .idle t).bind (fun ts =>
    match parseValue ts.length ts with
    | some (v, []) => some v
    | _ => none)

/-- `parseValue` reads `v` back, whatever follows. -/
def Parses (v : Json) : Prop :=
  ∀ n ts, v.tokens.length ≤ n → parseValue n (v.tokens ++ ts) = some (v, ts)

variable {v : Json} {l : List Json} {k : Text} {ms : List (Text × Json)} {n : ℕ} {ts : List Token}

lemma exists_tokens (v : Json) :
    ∃ tok ts, v.tokens = tok :: ts ∧ tok ≠ .rbrack := by
  cases v with
  | num n => exact ⟨_, _, rfl, by simp⟩
  | arr l => cases l <;> exact ⟨_, _, rfl, by simp⟩
  | obj ms => cases ms <;> exact ⟨_, _, rfl, by simp⟩

lemma parseValue_lbrack (v : Json) (n : ℕ) (ts : List Token) :
    parseValue (n + 1) (.lbrack :: (v.tokens ++ ts)) =
      (parseElements n (v.tokens ++ ts)).map (fun x => (.arr x.1, x.2)) := by
  obtain ⟨tok, ts', htok, hne⟩ := exists_tokens v
  rw [htok]
  cases tok with
  | rbrack => exact absurd rfl hne
  | _ => rfl

variable (ts) in
lemma parseElements_eq (hv : Parses v) (hl : ∀ w ∈ l, Parses w)
    (hn : v.tokens.length + (tailTokens l).length + 1 ≤ n) :
    parseElements n (v.tokens ++ (tailTokens l ++ .rbrack :: ts)) = some (v :: l, ts) := by
  induction l generalizing v n with
  | nil =>
    obtain ⟨m, rfl⟩ : ∃ m, n = m + 1 := ⟨n - 1, by omega⟩
    unfold parseElements
    rw [hv m _ (by omega), Option.bind_some]
    rfl
  | cons w l ih =>
    obtain ⟨m, rfl⟩ : ∃ m, n = m + 1 := ⟨n - 1, by omega⟩
    have htail : tailTokens (w :: l) = .comma :: (w.tokens ++ tailTokens l) := rfl
    rw [htail, List.length_cons, List.length_append] at hn
    unfold parseElements
    rw [hv m _ (by omega), Option.bind_some, htail, List.cons_append, List.append_assoc]
    dsimp only
    rw [ih (hl w List.mem_cons_self) (fun x hx => hl x (List.mem_cons_of_mem w hx)) (by omega)]
    rfl

variable (ts) in
lemma parseMembers_eq (hv : Parses v) (hms : ∀ m ∈ ms, Parses m.2)
    (hn : v.tokens.length + (memberTokens ms).length + 1 ≤ n) :
    parseMembers n (.str k :: .colon :: (v.tokens ++ (memberTokens ms ++ .rbrace :: ts))) =
      some ((k, v) :: ms, ts) := by
  induction ms generalizing k v n with
  | nil =>
    obtain ⟨m, rfl⟩ : ∃ m, n = m + 1 := ⟨n - 1, by omega⟩
    unfold parseMembers
    rw [hv m _ (by omega), Option.bind_some]
    rfl
  | cons w ms ih =>
    obtain ⟨m, rfl⟩ : ∃ m, n = m + 1 := ⟨n - 1, by omega⟩
    have htail : memberTokens (w :: ms) =
        .comma :: .str w.1 :: .colon :: (w.2.tokens ++ memberTokens ms) := rfl
    rw [htail, List.length_cons, List.length_cons, List.length_cons, List.length_append] at hn
    unfold parseMembers
    rw [hv m _ (by omega), Option.bind_some, htail, List.cons_append, List.cons_append,
      List.cons_append, List.append_assoc]
    dsimp only
    rw [ih (hms w List.mem_cons_self) (fun x hx => hms x (List.mem_cons_of_mem w hx)) (by omega)]
    rfl

lemma parses (v : Json) : Parses v := by
  induction v using Data.induct with
  | num k =>
    intro n ts hn
    obtain ⟨m, rfl⟩ : ∃ m, n = m + 1 := ⟨n - 1, by simp [Data.tokens] at hn; omega⟩
    rfl
  | arr l ih =>
    intro n ts hn
    cases l with
    | nil =>
      obtain ⟨m, rfl⟩ : ∃ m, n = m + 1 := ⟨n - 1, by simp [Data.tokens] at hn; omega⟩
      rfl
    | cons v l =>
      have htoks : (Data.arr (v :: l)).tokens =
          .lbrack :: (v.tokens ++ tailTokens l ++ [.rbrack]) := rfl
      rw [htoks] at hn ⊢
      simp only [List.length_cons, List.length_append, List.length_nil] at hn
      obtain ⟨m, rfl⟩ : ∃ m, n = m + 1 := ⟨n - 1, by omega⟩
      rw [List.cons_append, List.append_assoc, List.append_assoc, parseValue_lbrack]
      have hrun := parseElements_eq (n := m) ts (ih v List.mem_cons_self)
        (fun w hw => ih w (List.mem_cons_of_mem v hw)) (by omega)
      rw [List.singleton_append, hrun]
      rfl
  | obj ms ih =>
    intro n ts hn
    cases ms with
    | nil =>
      obtain ⟨m, rfl⟩ : ∃ m, n = m + 1 := ⟨n - 1, by simp [Data.tokens] at hn; omega⟩
      rfl
    | cons w ms =>
      have htoks : (Data.obj (w :: ms)).tokens =
          .lbrace :: .str w.1 :: .colon :: (w.2.tokens ++ memberTokens ms ++ [.rbrace]) := rfl
      rw [htoks] at hn ⊢
      simp only [List.length_cons, List.length_append, List.length_nil] at hn
      obtain ⟨m, rfl⟩ : ∃ m, n = m + 1 := ⟨n - 1, by omega⟩
      have hrun := parseMembers_eq (n := m) (k := w.1) ts (ih w List.mem_cons_self)
        (fun x hx => ih x (List.mem_cons_of_mem w hx)) (by omega)
      simp only [List.cons_append, List.append_assoc, List.nil_append]
      unfold parseValue
      dsimp only
      rw [hrun]
      rfl

/-- A text is read as the value it stands for. -/
theorem readJson_of_isJson {t : Text} (h : IsJson t v) : readJson t = some v := by
  unfold readJson
  have hparse := parses v v.tokens.length [] (Nat.le_refl _)
  rw [List.append_nil] at hparse
  rw [lex_of_lexes h.1, Option.bind_some, hparse]

end Parsing

end ResSim
