import Cusco.Gbnf

/-!
Reading the text of a grammar. The characters build tokens and the tokens build rules, one
after the other, so that the reading of a text follows from those of its parts.
-/

namespace Cusco.GbnfTexts

open Characters Gbnf

inductive Token
  | name (s : List Char)
  | defines
  | text (cs : List Char)
  | chars (set : CharSet)
  | opening
  | closing
  | bar
  | repeated (least : ℕ) (most : Option ℕ)
  | newline
  deriving DecidableEq

section Tokens

/-- How far an escaped character is read. -/
inductive Escape
  | none
  | begun
  | hex (left value : ℕ)
  deriving DecidableEq

/-- A class of characters as far as it is read: the last character can still begin a range. -/
structure OpenSet where
  negated : Bool
  ranges : List (Char × Char)
  last : Option Char
  range : Bool
  deriving DecidableEq

/-- What the characters read last belong to. -/
inductive Mode
  | plain
  | comment
  | colon
  | colons
  | name (s : List Char)
  | text (cs : List Char) (escape : Escape)
  | firstOfSet
  | chars (set : OpenSet) (escape : Escape)
  | bounds (digits : List Char)
  deriving DecidableEq

def isNameChar (c : Char) : Bool := c.isAlphanum || c == '-'

/-- One character of a literal or a class: the character it stands for, if it ends one. -/
def readChar (escape : Escape) (c : Char) : Option (Escape × Option Char) :=
  match escape with
  | .none => if c = '\\' then some (.begun, none) else some (.none, some c)
  | .begun =>
    if c = 'x' then some (.hex 2 0, none)
    else if c = 'u' then some (.hex 4 0, none)
    else if c = 'U' then some (.hex 8 0, none)
    else if c = 't' then some (.none, some '\t')
    else if c = 'r' then some (.none, some '\r')
    else if c = 'n' then some (.none, some '\n')
    else if c = '\\' ∨ c = '"' ∨ c = '[' ∨ c = ']' then some (.none, some c)
    else none
  | .hex left value =>
    match hexDigit c with
    | none => none
    | some digit =>
      if left ≤ 1 then some (.none, some (Char.ofNat (value * 16 + digit)))
      else some (.hex (left - 1) (value * 16 + digit), none)

/-- The ranges with those of the last characters, at the end of a class. -/
def OpenSet.close (set : OpenSet) : CharSet :=
  ⟨set.negated, set.ranges ++ (set.last.toList.map (fun c => (c, c))) ++
    (if set.range then [('-', '-')] else [])⟩

def OpenSet.add (set : OpenSet) (c : Char) : OpenSet :=
  match set.last with
  | none => { set with last := some c }
  | some first =>
    if set.range then
      { set with ranges := set.ranges ++ [(first, c)], last := none, range := false }
    else { set with ranges := set.ranges ++ [(first, first)], last := some c }

/-- The bounds of a repetition between its braces. -/
def readBounds (digits : List Char) : Option Token :=
  let least := digits.takeWhile Char.isDigit
  let rest := digits.dropWhile Char.isDigit
  if least = [] then none
  else
    let value := Nat.ofDigitChars 10 least 0
    match rest with
    | [] => some (.repeated value (some value))
    | c :: most =>
      if c ≠ ',' ∨ ¬most.all Char.isDigit then none
      else if most = [] then some (.repeated value none)
      else some (.repeated value (some (Nat.ofDigitChars 10 most 0)))

/-- A character outside of names, literals, classes and comments. -/
def readPlain (c : Char) : Option (List Token × Mode) :=
  if c = ' ' ∨ c = '\t' ∨ c = '\r' then some ([], .plain)
  else if c = '\n' then some ([.newline], .plain)
  else if c = '#' then some ([], .comment)
  else if c = ':' then some ([], .colon)
  else if c = '"' then some ([], .text [] .none)
  else if c = '[' then some ([], .firstOfSet)
  else if c = '(' then some ([.opening], .plain)
  else if c = ')' then some ([.closing], .plain)
  else if c = '|' then some ([.bar], .plain)
  else if c = '*' then some ([.repeated 0 none], .plain)
  else if c = '+' then some ([.repeated 1 none], .plain)
  else if c = '?' then some ([.repeated 0 (some 1)], .plain)
  else if c = '{' then some ([], .bounds [])
  else if c = '.' then some ([.chars ⟨true, []⟩], .plain)
  else if isNameChar c then some ([], .name [c])
  else none

def readSet (set : OpenSet) (escape : Escape) (c : Char) : Option (List Token × Mode) :=
  if escape = .none ∧ c = ']' then some ([.chars set.close], .plain)
  else if escape = .none ∧ c = '-' ∧ set.last.isSome ∧ ¬set.range then
    some ([], .chars { set with range := true } .none)
  else
    match readChar escape c with
    | none => none
    | some (escape, none) => some ([], .chars set escape)
    | some (escape, some c) => some ([], .chars (set.add c) escape)

/-- The tokens that a character ends, and what the next character belongs to. -/
def lexChar (mode : Mode) (c : Char) : Option (List Token × Mode) :=
  match mode with
  | .plain => readPlain c
  | .comment => if c = '\n' then some ([.newline], .plain) else some ([], .comment)
  | .colon => if c = ':' then some ([], .colons) else none
  | .colons => if c = '=' then some ([.defines], .plain) else none
  | .name s =>
    if isNameChar c then some ([], .name (s ++ [c]))
    else (readPlain c).map (fun read => (.name s :: read.1, read.2))
  | .text cs escape =>
    if escape = .none ∧ c = '"' then some ([.text cs], .plain)
    else (readChar escape c).map (fun read => ([], .text (cs ++ read.2.toList) read.1))
  | .firstOfSet =>
    if c = '^' then some ([], .chars ⟨true, [], none, false⟩ .none)
    else readSet ⟨false, [], none, false⟩ .none c
  | .chars set escape => readSet set escape c
  | .bounds digits =>
    if c = '}' then (readBounds digits).map (fun token => ([token], .plain))
    else some ([], .bounds (digits ++ [c]))

/-- The tokens that the end of the text ends, unless it breaks off inside of one. -/
def lexEnd : Mode → Option (List Token)
  | .plain => some []
  | .comment => some []
  | .name s => some [.name s]
  | _ => none

end Tokens

section Rules

/-- An expression as far as it is read: the alternatives before the last bar, the sequence after
it, and the last item of it, which can still be repeated. -/
structure Frame where
  left : Option Expr
  before : Expr
  last : Option Expr
  deriving DecidableEq

def Frame.new : Frame := ⟨none, .text [], none⟩

/-- The sequence after the last bar. -/
def Frame.current (f : Frame) : Expr :=
  match f.last with
  | none => f.before
  | some last => .seq f.before last

def Frame.expr (f : Frame) : Expr :=
  match f.left with
  | none => f.current
  | some left => .alt left f.current

def Frame.push (f : Frame) (item : Expr) : Frame := ⟨f.left, f.current, some item⟩

def Frame.bar (f : Frame) : Frame := ⟨some f.expr, .text [], none⟩

inductive Stage
  | between
  | named (name : List Char)
  | body (name : List Char) (frame : Frame) (outer : List Frame)
  deriving DecidableEq

/-- What is read of a grammar. -/
structure Reading where
  rules : Rules
  stage : Stage
  deriving DecidableEq

/-- A token within the right side of a rule. A line ends the rule unless something is still
missing. -/
def Reading.inBody (r : Reading) (name : List Char) (frame : Frame) (outer : List Frame)
    (token : Token) : Option Reading :=
  match token with
  | .name s => some { r with stage := .body name (frame.push (.rule s)) outer }
  | .defines => none
  | .text cs => some { r with stage := .body name (frame.push (.text cs)) outer }
  | .chars set => some { r with stage := .body name (frame.push (.chars set)) outer }
  | .opening => some { r with stage := .body name .new (frame :: outer) }
  | .closing =>
    match outer with
    | [] => none
    | f :: outer => some { r with stage := .body name (f.push frame.expr) outer }
  | .bar => some { r with stage := .body name frame.bar outer }
  | .repeated least most =>
    frame.last.map (fun last =>
      { r with stage := .body name { frame with last := some (.repeated last least most) } outer })
  | .newline =>
    if outer = [] ∧ frame.last.isSome then
      some ⟨r.rules ++ [(name, frame.expr)], .between⟩
    else some r

def Reading.token (r : Reading) (token : Token) : Option Reading :=
  match r.stage with
  | .between =>
    match token with
    | .newline => some r
    | .name s => some { r with stage := .named s }
    | _ => none
  | .named s =>
    if token = .defines then some { r with stage := .body s .new [] } else none
  | .body name frame outer => r.inBody name frame outer token

def Reading.tokens (r : Reading) : List Token → Option Reading
  | [] => some r
  | token :: tokens => (r.token token).bind (fun r => r.tokens tokens)

/-- The rules, unless the last one breaks off within parentheses or before its right side. -/
def Reading.finish (r : Reading) : Option Rules :=
  match r.stage with
  | .between => some r.rules
  | .named _ => none
  | .body name frame outer =>
    if outer = [] then some (r.rules ++ [(name, frame.expr)]) else none

/-- The rest of a text after what has been read of it. -/
def Reading.read (r : Reading) (mode : Mode) : List Char → Option Rules
  | [] => (lexEnd mode).bind (fun tokens => (r.tokens tokens).bind Reading.finish)
  | c :: cs =>
    match lexChar mode c with
    | none => none
    | some (tokens, mode) =>
      match r.tokens tokens with
      | none => none
      | some r => r.read mode cs

/-- The rules of a grammar's text. -/
def readGrammar (text : List Char) : Option Rules :=
  (Reading.mk [] .between).read .plain text

end Rules

section Parts

/-- The text does not continue a name. -/
def Parted (s : List Char) : Prop := ∀ c ∈ s.head?, isNameChar c = false

/-- The part takes one reading to the next, whatever follows. -/
def Spells (r : Reading) (part : List Char) (r' : Reading) : Prop :=
  ∀ rest, r.read .plain (part ++ rest) = r'.read .plain rest

/-- The part takes one reading to the next unless a name goes on after it. -/
def Reads (r : Reading) (part : List Char) (r' : Reading) : Prop :=
  ∀ rest, Parted rest → r.read .plain (part ++ rest) = r'.read .plain rest

variable {r r' r'' : Reading} {a b : List Char}

theorem Spells.reads (h : Spells r a r') : Reads r a r' := fun rest _ => h rest

theorem Spells.append (ha : Spells r a r') (hb : Spells r' b r'') : Spells r (a ++ b) r'' := by
  intro rest
  rw [List.append_assoc, ha, hb]

theorem Spells.before (ha : Spells r a r') (hb : Reads r' b r'') : Reads r (a ++ b) r'' := by
  intro rest hrest
  rw [List.append_assoc, ha, hb rest hrest]

theorem Parted.append (ha : Parted a) (hb : Parted b) : Parted (a ++ b) := by
  cases a with
  | nil => exact hb
  | cons c a => exact ha

/-- What is set apart from the part before it ends the part. -/
theorem Reads.append (ha : Reads r a r') (hb : Reads r' b r'') (hparted : Parted b) :
    Reads r (a ++ b) r'' := by
  intro rest hrest
  rw [List.append_assoc, ha _ (hparted.append hrest), hb rest hrest]

theorem Reads.before {c : Char} (ha : Reads r a r') (hb : Spells r' (c :: b) r'')
    (hc : isNameChar c = false) : Spells r (a ++ c :: b) r'' := by
  intro rest
  have hparted : Parted (c :: b ++ rest) := by
    intro d hd
    cases hd
    exact hc
  rw [List.append_assoc, ha _ hparted, hb]

theorem readPlain_nameChar {c : Char} (hc : isNameChar c = true) :
    readPlain c = some ([], .name [c]) := by
  have hne : ∀ d, isNameChar d = false → c ≠ d := by
    rintro d hd rfl
    rw [hc] at hd
    cases hd
  unfold readPlain
  simp only [hne ' ' rfl, hne '\t' rfl, hne '\r' rfl, hne '\n' rfl, hne '#' rfl, hne ':' rfl,
    hne '"' rfl, hne '[' rfl, hne '(' rfl, hne ')' rfl, hne '|' rfl, hne '*' rfl, hne '+' rfl,
    hne '?' rfl, hne '{' rfl, hne '.' rfl, or_self, if_false, hc, if_true]

theorem read_name (r : Reading) (s more rest : List Char) (hmore : more.all isNameChar = true) :
    r.read (.name s) (more ++ rest) = r.read (.name (s ++ more)) rest := by
  induction more generalizing s with
  | nil => rw [List.nil_append, List.append_nil]
  | cons c more ih =>
    obtain ⟨hc, hmore⟩ := Bool.and_eq_true_iff.mp hmore
    have hstep : lexChar (.name s) c = some ([], .name (s ++ [c])) := by
      simp only [lexChar, hc, if_true]
    rw [List.cons_append, Reading.read, hstep]
    simp only [Reading.tokens]
    rw [ih _ hmore, List.append_assoc, List.singleton_append]

/-- A name is read once it cannot go on. -/
theorem reads_name {s : List Char} (hs : s ≠ []) (hchars : s.all isNameChar = true)
    (h : r.token (.name s) = some r') : Reads r s r' := by
  intro rest hrest
  obtain ⟨c, more, rfl⟩ := List.exists_cons_of_ne_nil hs
  obtain ⟨hc, hmore⟩ := Bool.and_eq_true_iff.mp hchars
  have hfirst : lexChar .plain c = some ([], .name [c]) := readPlain_nameChar hc
  rw [List.cons_append, Reading.read, hfirst]
  simp only [Reading.tokens]
  rw [read_name r [c] more rest hmore, List.singleton_append]
  cases rest with
  | nil => simp only [Reading.read, lexEnd, Option.bind_some, Reading.tokens, h]
  | cons d rest =>
    have hd : isNameChar d = false := hrest d rfl
    have hstep : lexChar (.name (c :: more)) d =
        (readPlain d).map (fun read => (.name (c :: more) :: read.1, read.2)) := by
      simp only [lexChar, hd, Bool.false_eq_true, if_false]
    rw [Reading.read, hstep, Reading.read]
    have hplain : lexChar .plain d = readPlain d := rfl
    rw [hplain]
    cases readPlain d with
    | none => rfl
    | some read => simp only [Option.map_some, Reading.tokens, h, Option.bind_some]

end Parts

section Frames

def Frame.pushAll (f : Frame) (items : List Expr) : Frame := items.foldl .push f

theorem pushAll_append (f : Frame) (first second : List Expr) :
    f.pushAll (first ++ second) = (f.pushAll first).pushAll second :=
  List.foldl_append

theorem left_pushAll (items : List Expr) (f : Frame) : (f.pushAll items).left = f.left := by
  induction items generalizing f with
  | nil => rfl
  | cons item items ih => exact ih (f.push item)

theorem current_pushAll (items : List Expr) (f : Frame) :
    (f.pushAll items).current = items.foldl .seq f.current := by
  induction items generalizing f with
  | nil => rfl
  | cons item items ih => exact ih (f.push item)

/-- Items without a bar between them make up their sequence. -/
theorem expr_pushAll (items : List Expr) : (Frame.new.pushAll items).expr = .sequence items := by
  unfold Frame.expr
  rw [left_pushAll, current_pushAll]
  rfl

end Frames

end Cusco.GbnfTexts
