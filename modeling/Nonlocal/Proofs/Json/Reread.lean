import Nonlocal.Proofs.Json.Numbers

/-!
Values read back from their text.

A value is written on one line, or with each item and each entry on a line of its own. Both texts
are read as the same document (`Document.read_compact`, `Document.read_pretty`): that of the value,
with each number as it is read from its own text (`Document.ofWritten`). For the blanks between the
parts do not matter, and nothing that may follow a value is a part of it. Where every number is read
as it was this is the document of the value, and a decoder makes of its text what it makes of the
value.
-/

namespace Nonlocal.Json

/-! ## Strings -/

namespace StringLiteral

/-- The piece that a character is written as. -/
def pieceOf (c : Char) : Piece :=
  if c.toNat < 0x20 ∧ c ∉ ['\n', '\r', '\t', '\x08', '\x0c'] then .unit c.toNat else .char c

theorem hexValue?_control {n : Nat} (control : n < 0x20) :
    Text.hexValue? ['0', '0', if n < 0x10 then '0' else '1', Nat.digitChar (n % 16)] = some n := by
  have table : ∀ n < 0x20, Text.hexValue?
      ['0', '0', if n < 0x10 then '0' else '1', Nat.digitChar (n % 16)] = some n := by decide
  exact table n control

theorem pieces_escapeChar (c : Char) (rest : List Char) (acc : List Piece) :
    pieces (escapeChar c ++ rest) acc = pieces rest (pieceOf c :: acc) := by
  unfold escapeChar
  split
  case h_8 quote backslash newline ret tab back feed =>
    split
    · next control =>
      change pieces ('\\' :: 'u' :: _ :: _ :: _ :: _ :: rest) acc = _
      have other : c ∉ ['\n', '\r', '\t', '\x08', '\x0c'] := by
        simp only [List.mem_cons, List.not_mem_nil, or_false, not_or]
        exact ⟨newline, ret, tab, back, feed⟩
      rw [pieces, hexValue?_control control, pieceOf, if_pos ⟨control, other⟩]
    · next printable =>
      rw [List.singleton_append, pieces, if_neg printable, pieceOf,
        if_neg fun control => printable control.1]
      · exact quote
      · exact fun _ _ _ _ _ same _ => backslash same
      · exact fun _ same _ => backslash same
      · exact fun _ _ same _ => backslash same
      · exact fun same _ => backslash same
  all_goals rfl

theorem join_map_pieceOf (rest cs acc : List Char) :
    join (.closed rest) (cs.map pieceOf) acc = .ok (acc.reverse ++ cs) := by
  induction cs generalizing acc with
  | nil => exact congrArg Except.ok (List.append_nil _).symm
  | cons c cs ih =>
    have moved : acc.reverse ++ c :: cs = (c :: acc).reverse ++ cs := by
      rw [List.reverse_cons, List.append_assoc]
      rfl
    rw [List.map_cons, pieceOf, moved]
    split
    · next control =>
      have below : c.toNat < 0x20 := control.1
      have trailing : isTrailing c.toNat = false := by
        rw [isTrailing, Bool.and_eq_false_iff, decide_eq_false_iff_not]
        omega
      have leading : isLeading c.toNat = false := by
        rw [isLeading, Bool.and_eq_false_iff, decide_eq_false_iff_not]
        omega
      unfold join
      simp only [trailing, leading, Char.ofNat_toNat]
      exact ih (c :: acc)
    · rw [join]
      exact ih (c :: acc)

theorem pieces_escaped (cs rest : List Char) (acc : List Piece) :
    pieces (cs.flatMap escapeChar ++ '"' :: rest) acc =
      (acc.reverse ++ cs.map pieceOf, .closed rest) := by
  induction cs generalizing acc with
  | nil => exact congrArg (·, Stop.closed rest) (List.append_nil _).symm
  | cons c cs ih =>
    rw [List.flatMap_cons, List.append_assoc, pieces_escapeChar, ih, List.reverse_cons,
      List.append_assoc]
    rfl

/-- A string is read from its text, whatever its characters are. -/
theorem read_escaped (s : String) (rest : List Char) :
    read (s.toList.flatMap escapeChar ++ '"' :: rest) = (.pure s, some rest) := by
  rw [read, pieces_escaped]
  have value := join_map_pieceOf rest s.toList []
  rw [List.reverse_nil, List.nil_append] at *
  simp only [value, Except.map, String.ofList_toList]
  rfl

end StringLiteral

/-! ## Values -/

namespace Document

mutual

/-- The document of a value that was written: its numbers are read from their own texts. -/
def ofWritten : Json → Document
  | .null => .null
  | .boolean b => .boolean b
  | .integer n => .number (NumberParts.read (toString n).toList).1
  | .decimal x => .number (NumberParts.read (numberText x).toList).1
  | .string s => .string (.pure s)
  | .array items => .list (ofWrittenItems items) .closed
  | .object entries => .object (ofWrittenEntries entries) .closed

/-- The documents of the items of an array. -/
def ofWrittenItems : List Json → List Document
  | [] => []
  | v :: rest => ofWritten v :: ofWrittenItems rest

/-- The documents of the entries of an object. -/
def ofWrittenEntries : List (String × Json) → List (Leaf String × Document)
  | [] => []
  | (key, v) :: rest => (.pure key, ofWritten v) :: ofWrittenEntries rest

end

theorem ofWrittenItems_eq (items : List Json) : ofWrittenItems items = items.map ofWritten := by
  induction items with
  | nil => rfl
  | cons v rest ih => exact congrArg (ofWritten v :: ·) ih

theorem ofWrittenEntries_eq (entries : List (String × Json)) :
    ofWrittenEntries entries = entries.map fun e => (Leaf.pure e.1, ofWritten e.2) := by
  induction entries with
  | nil => rfl
  | cons e rest ih => exact congrArg ((Leaf.pure e.1, ofWritten e.2) :: ·) ih

/-! ## Texts of documents -/

/-- The text starts with something that can start a value. -/
def Starts (cs : List Char) : Prop :=
  ∃ c more, cs = c :: more ∧ isSpace c = false ∧ c ≠ ']'

/-- The text is read as the document in front of what may follow a value. -/
def IsRead (cs : List Char) (d : Document) : Prop :=
  ∀ (fuel : Nat) (rest : List Char), cs.length ≤ fuel → Delimits rest →
    readValue fuel (cs ++ rest) = (d, some rest)

/-- Nothing but blanks. -/
def Blank (gap : List Char) : Prop :=
  ∀ c ∈ gap, isSpace c = true

variable {cs gap tail rest : List Char} {d : Document}

theorem dropSpace_cons {c : Char} (solid : isSpace c = false) (cs : List Char) :
    dropSpace (c :: cs) = c :: cs :=
  List.dropWhile_cons_of_neg (Bool.eq_false_iff.mp solid)

theorem dropSpace_append (blank : Blank gap) (cs : List Char) :
    dropSpace (gap ++ cs) = dropSpace cs :=
  List.dropWhile_append_of_pos blank

/-- A bracket or a comma may follow a value. -/
theorem delimits_cons {c : Char} (stop : c = ',' ∨ c = ']' ∨ c = '\x7d') (more : List Char) :
    Delimits (c :: more) := by
  intro b first
  cases first
  rcases stop with rfl | rfl | rfl
  · exact .inl rfl
  · exact .inr (.inl rfl)
  · exact .inr (.inr (.inl rfl))

/-- Blanks may come before it. -/
theorem delimits_append (blank : Blank gap) {c : Char} (stop : c = ',' ∨ c = ']' ∨ c = '\x7d')
    (more : List Char) : Delimits (gap ++ c :: more) := by
  intro b first
  rcases gap with _ | ⟨space, gap⟩
  · exact delimits_cons stop more b first
  · cases first
    exact .inr (.inr (.inr (blank _ List.mem_cons_self)))

/-- Blanks in front of a value are passed over. -/
theorem IsRead.blank_append (read : IsRead cs d) (blank : Blank gap) (some_char : cs ≠ []) :
    IsRead (gap ++ cs) d := by
  intro fuel rest enough delimited
  rw [List.length_append] at enough
  have shorter : cs.length ≤ fuel := by omega
  have value := read fuel rest shorter delimited
  rcases fuel with _ | fuel
  · exact absurd (List.eq_nil_of_length_eq_zero (Nat.le_zero.mp shorter)) some_char
  · rw [readValue] at value
    rw [readValue, List.append_assoc, dropSpace_append blank]
    exact value

theorem isSpace_of_head {c : Char} (head : c = '-' ∨ c.isDigit = true) : isSpace c = false := by
  have apart {d : Char} (other : ¬(d = '-' ∨ d.isDigit = true)) : c ≠ d := by
    rintro rfl
    exact other head
  simp [isSpace, apart]

theorem readValue_number {leaf : Leaf Numeral} {fuel : Nat}
    (alone : NumberParts.read cs = (leaf, some [])) (enough : cs.length ≤ fuel)
    (delimited : Delimits rest) :
    readValue fuel (cs ++ rest) = (.number leaf, some rest) := by
  have whole := NumberParts.read_append alone delimited
  obtain ⟨c, more, rfl, head⟩ := NumberParts.exists_head_of_read alone
  have apart {d : Char} (other : ¬(d = '-' ∨ d.isDigit = true)) (same : c = d) : False :=
    other (same ▸ head)
  cases fuel with
  | zero => cases enough
  | succ fuel =>
    rw [List.cons_append, readValue, dropSpace_cons (isSpace_of_head head)]
    split
    · next same => cases same
    · next same => exact (apart (by decide) (List.cons.inj same).1).elim
    · next same => exact (apart (by decide) (List.cons.inj same).1).elim
    · next same => exact (apart (by decide) (List.cons.inj same).1).elim
    · next same => exact (apart (by decide) (List.cons.inj same).1).elim
    · next same => exact (apart (by decide) (List.cons.inj same).1).elim
    · next same => exact (apart (by decide) (List.cons.inj same).1).elim
    · next same =>
      obtain ⟨rfl, rfl⟩ := List.cons.inj same
      rw [if_pos head, ← List.cons_append, whole]

/-- The text of a document, in front of which there are no blanks. -/
structure IsText (cs : List Char) (d : Document) : Prop where
  starts : Starts cs
  read : IsRead cs d

theorem isText_number {leaf : Leaf Numeral} (alone : NumberParts.read cs = (leaf, some [])) :
    IsText cs (.number leaf) where
  starts := by
    obtain ⟨c, more, same, head⟩ := NumberParts.exists_head_of_read alone
    refine ⟨c, more, same, isSpace_of_head head, ?_⟩
    rintro rfl
    exact absurd head (by decide)
  read _ _ := readValue_number alone

theorem isText_string (s : String) : IsText (stringText s).toList (.string (.pure s)) := by
  have text : (stringText s).toList = '"' :: (s.toList.flatMap escapeChar ++ ['"']) :=
    String.toList_ofList
  refine ⟨⟨'"', _, text, rfl, by decide⟩, fun fuel rest enough _ => ?_⟩
  rw [text] at enough ⊢
  cases fuel with
  | zero => cases enough
  | succ fuel =>
    have value : readValue (fuel + 1) ('"' :: (s.toList.flatMap escapeChar ++ '"' :: rest)) =
        (.string (StringLiteral.read (s.toList.flatMap escapeChar ++ '"' :: rest)).1,
          (StringLiteral.read (s.toList.flatMap escapeChar ++ '"' :: rest)).2) := rfl
    rw [List.cons_append, List.append_assoc, List.singleton_append, value,
      StringLiteral.read_escaped]

/-! ## Brackets -/

/-- Parts with commas and a gap between them, and a bracket behind the last one. -/
def enclosed (close : Char) (gap tail : List Char) : List (List Char) → List Char
  | [] => tail ++ [close]
  | [part] => part ++ (tail ++ [close])
  | part :: next :: rest => part ++ ',' :: (gap ++ enclosed close gap tail (next :: rest))

theorem exists_head_enclosed (close : Char) (gap tail : List Char) {part : List Char}
    (starts : Starts part) (parts : List (List Char)) :
    Starts (enclosed close gap tail (part :: parts)) := by
  obtain ⟨c, more, rfl, solid, item⟩ := starts
  rcases parts with _ | ⟨next, parts⟩
  · exact ⟨c, _, rfl, solid, item⟩
  · exact ⟨c, _, rfl, solid, item⟩

theorem readItems_enclosed (blankGap : Blank gap) (blankTail : Blank tail)
    {p : List Char × Document} {parts : List (List Char × Document)}
    (texts : ∀ q ∈ p :: parts, IsText q.1 q.2) (acc : List Document) (fuel : Nat)
    (rest : List Char)
    (enough : (enclosed ']' gap tail ((p :: parts).map Prod.fst)).length ≤ fuel) :
    readItems fuel (enclosed ']' gap tail ((p :: parts).map Prod.fst) ++ rest) acc =
      (.list (acc.reverse ++ (p :: parts).map Prod.snd) .closed, some rest) := by
  have bracket : isSpace ']' = false := rfl
  have comma : isSpace ',' = false := rfl
  induction parts generalizing p acc fuel with
  | nil =>
    rcases List.forall_mem_cons.mp texts with ⟨text, -⟩
    simp only [List.map_cons, List.map_nil, enclosed, List.length_append, List.length_cons,
      List.length_nil] at enough ⊢
    cases fuel with
    | zero => omega
    | succ fuel =>
      have value := text.read fuel (tail ++ ']' :: rest) (by omega)
        (delimits_append blankTail (.inr (.inl rfl)) rest)
      rw [List.append_assoc, List.append_assoc, List.singleton_append, readItems, value]
      simp only [Option.map_some, dropSpace_append blankTail, dropSpace_cons bracket]
      rw [List.reverse_cons]
  | cons q parts ih =>
    rcases List.forall_mem_cons.mp texts with ⟨text, others⟩
    rcases List.forall_mem_cons.mp others with ⟨next, -⟩
    rcases exists_head_enclosed ']' gap tail next.starts (parts.map Prod.fst) with
      ⟨c, more, same, solid, item⟩
    simp only [List.map_cons, enclosed, List.length_append, List.length_cons] at enough ih ⊢
    cases fuel with
    | zero => omega
    | succ fuel =>
      have later := ih others (p.2 :: acc) fuel (by omega)
      rw [same] at later ⊢
      have value := text.read fuel (',' :: (gap ++ c :: more) ++ rest) (by omega)
        (delimits_cons (.inl rfl) _)
      rw [List.append_assoc, readItems, value]
      simp only [List.cons_append, List.append_assoc, Option.map_some, dropSpace_cons comma,
        dropSpace_append blankGap, dropSpace_cons solid]
      split
      · next closed => exact absurd (List.cons.inj closed).1 item
      · rw [← List.cons_append, later, List.reverse_cons, List.append_assoc]
        rfl

/-- The text of an array. -/
theorem isText_array (blankGap : Blank gap) (blankTail : Blank tail)
    {p : List Char × Document} {parts : List (List Char × Document)}
    (texts : ∀ q ∈ p :: parts, IsText q.1 q.2) :
    IsText ('[' :: (gap ++ enclosed ']' gap tail ((p :: parts).map Prod.fst)))
      (.list ((p :: parts).map Prod.snd) .closed) := by
  refine ⟨⟨'[', _, rfl, rfl, by decide⟩, fun fuel rest enough _ => ?_⟩
  rw [List.length_cons, List.length_append] at enough
  rcases exists_head_enclosed ']' gap tail (texts p List.mem_cons_self).starts
    (parts.map Prod.fst) with ⟨c, more, same, solid, item⟩
  cases fuel with
  | zero => cases enough
  | succ fuel =>
    have items := readItems_enclosed blankGap blankTail texts [] fuel rest (by omega)
    have bracket : isSpace '[' = false := rfl
    rw [List.map_cons, same] at items ⊢
    simp only [readValue, List.cons_append, List.append_assoc, dropSpace_cons bracket,
      dropSpace_append blankGap, dropSpace_cons solid]
    split
    · next none => cases none
    · next closed => exact absurd (List.cons.inj closed).1 item
    · exact items

/-! ## Entries -/

/-- The text of an entry: its key between quotes, a colon and the text of its value. -/
def entryText (key : String) (value : List Char) : List Char :=
  '"' :: (key.toList.flatMap escapeChar ++ '"' :: ':' :: value)

/-- The key of an entry is read, and its value after the colon. -/
theorem readEntries_entry (key : String) (read : IsRead cs d) (blank : Blank tail)
    (acc : List (Leaf String × Document)) (fuel : Nat) (first : Bool) {c : Char} (more : List Char)
    (enough : cs.length ≤ fuel) (closes : c = ',' ∨ c = '\x7d') :
    readEntries (fuel + 1) (entryText key cs ++ (tail ++ c :: more)) acc first =
      if c = ',' then readEntries fuel (dropSpace more) ((.pure key, d) :: acc) false
      else (.object (acc.reverse ++ [(.pure key, d)]) .closed, some more) := by
  have value := read fuel (tail ++ c :: more) enough
    (delimits_append blank (closes.imp_right .inr) more)
  have named := StringLiteral.read_escaped key (':' :: (cs ++ (tail ++ c :: more)))
  have colon : isSpace ':' = false := rfl
  rw [entryText, List.cons_append, List.append_assoc, List.cons_append, List.cons_append,
    readEntries, named]
  rcases closes with rfl | rfl
  · have comma : isSpace ',' = false := rfl
    simp only [Option.map_some, dropSpace_cons colon, value, dropSpace_append blank,
      dropSpace_cons comma]
    rfl
  · have brace : isSpace '\x7d' = false := rfl
    simp only [Option.map_some, dropSpace_cons colon, value, dropSpace_append blank,
      dropSpace_cons brace]
    rw [List.reverse_cons]
    rfl

theorem readEntries_enclosed (blankGap : Blank gap) (blankTail : Blank tail)
    {e : String × List Char × Document} {entries : List (String × List Char × Document)}
    (reads : ∀ other ∈ e :: entries, IsRead other.2.1 other.2.2)
    (acc : List (Leaf String × Document)) (fuel : Nat) (first : Bool) (rest : List Char)
    (enough : (enclosed '\x7d' gap tail
      ((e :: entries).map fun e => entryText e.1 e.2.1)).length ≤ fuel) :
    readEntries fuel (enclosed '\x7d' gap tail
      ((e :: entries).map fun e => entryText e.1 e.2.1) ++ rest) acc first =
      (.object (acc.reverse ++ (e :: entries).map fun e => (.pure e.1, e.2.2)) .closed,
        some rest) := by
  induction entries generalizing e acc fuel first with
  | nil =>
    rcases List.forall_mem_cons.mp reads with ⟨read, -⟩
    simp only [List.map_cons, List.map_nil, enclosed, List.length_append, List.length_cons,
      List.length_nil, entryText] at enough ⊢
    cases fuel with
    | zero => omega
    | succ fuel =>
      have entry := readEntries_entry e.1 read blankTail acc fuel first rest (by omega) (.inr rfl)
      rw [← entryText, List.append_assoc, List.append_assoc, List.singleton_append, entry]
      rfl
  | cons next entries ih =>
    rcases List.forall_mem_cons.mp reads with ⟨read, others⟩
    have quote : ∃ more, enclosed '\x7d' gap tail ((next :: entries).map fun e =>
        entryText e.1 e.2.1) = '"' :: more := by
      rcases entries with _ | ⟨last, entries⟩
      · exact ⟨_, rfl⟩
      · exact ⟨_, rfl⟩
    rcases quote with ⟨more, same⟩
    have later := ih others ((.pure e.1, e.2.2) :: acc)
    rw [same] at later
    simp only [List.map_cons, enclosed] at enough same ⊢
    rw [same] at enough ⊢
    simp only [List.length_append, List.length_cons, entryText] at enough
    cases fuel with
    | zero => omega
    | succ fuel =>
      have blankless : Blank [] := nofun
      have entry := readEntries_entry e.1 read blankless acc fuel first
        (gap ++ '"' :: more ++ rest) (by omega) (.inl rfl)
      rw [List.nil_append] at entry
      rw [List.append_assoc, List.cons_append, entry, if_pos rfl, List.append_assoc,
        dropSpace_append blankGap, List.cons_append, dropSpace_cons rfl, ← List.cons_append,
        later fuel false (by rw [List.length_cons]; omega), List.reverse_cons, List.append_assoc]
      rfl

/-- The text of an object. -/
theorem isText_object (blankGap : Blank gap) (blankTail : Blank tail)
    {e : String × List Char × Document} {entries : List (String × List Char × Document)}
    (reads : ∀ other ∈ e :: entries, IsRead other.2.1 other.2.2) :
    IsText ('\x7b' :: (gap ++ enclosed '\x7d' gap tail
        ((e :: entries).map fun e => entryText e.1 e.2.1)))
      (.object ((e :: entries).map fun e => (.pure e.1, e.2.2)) .closed) := by
  refine ⟨⟨'\x7b', _, rfl, rfl, by decide⟩, fun fuel rest enough _ => ?_⟩
  rw [List.length_cons, List.length_append] at enough
  cases fuel with
  | zero => cases enough
  | succ fuel =>
    have items := readEntries_enclosed blankGap blankTail reads [] fuel true rest (by omega)
    have brace (cs : List Char) :
        readValue (fuel + 1) ('\x7b' :: cs) = readEntries fuel (dropSpace cs) [] true := rfl
    have quote : ∃ more, enclosed '\x7d' gap tail ((e :: entries).map fun e =>
        entryText e.1 e.2.1) = '"' :: more := by
      rcases entries with _ | ⟨last, entries⟩
      · exact ⟨_, rfl⟩
      · exact ⟨_, rfl⟩
    rcases quote with ⟨more, same⟩
    rw [same] at items ⊢
    rw [List.cons_append, brace, List.append_assoc, dropSpace_append blankGap, List.cons_append,
      dropSpace_cons rfl]
    exact items

end Document

/-! ## Layouts -/

/-- Every decimal number inside of the value is finite. -/
inductive IsFinite : Json → Prop
  | null : IsFinite .null
  | boolean (b : Bool) : IsFinite (.boolean b)
  | integer (n : Int) : IsFinite (.integer n)
  | decimal {x : Float} : x.isFinite = true → IsFinite (.decimal x)
  | string (s : String) : IsFinite (.string s)
  | array {items : List Json} : (∀ v ∈ items, IsFinite v) → IsFinite (.array items)
  | object {entries : List (String × Json)} : (∀ e ∈ entries, IsFinite e.2) →
    IsFinite (.object entries)

namespace Document

theorem toList_intercalate (close : Char) (gap tail : String) (parts : List String) :
    (("," ++ gap).intercalate parts ++ tail).toList ++ [close] =
      enclosed close gap.toList tail.toList (parts.map String.toList) := by
  match parts with
  | [] => rw [String.intercalate_nil, String.empty_append]; rfl
  | [part] =>
    rw [String.intercalate_singleton, String.toList_append, List.append_assoc]
    rfl
  | part :: next :: rest =>
    have later := toList_intercalate close gap tail (next :: rest)
    rw [List.map_cons, List.map_cons, enclosed, ← List.map_cons, ← later,
      String.intercalate_cons_cons]
    simp only [String.toList_append, List.append_assoc]
    rfl

/-- Parts between brackets, with a gap in front of each part and another one behind the last. -/
theorem toList_bracketed (first last : String) {close : Char}
    (closing : last.toList = [close]) (gap tail : String) (parts : List String) :
    (first ++ gap ++ ("," ++ gap).intercalate parts ++ tail ++ last).toList =
      first.toList ++ (gap.toList ++
        enclosed close gap.toList tail.toList (parts.map String.toList)) := by
  rw [← toList_intercalate, ← closing]
  simp only [String.toList_append, List.append_assoc]

theorem isText_boolean (b : Bool) :
    IsText (if b then "true" else "false" : String).toList (.boolean b) := by
  cases b with
  | false =>
    refine ⟨⟨'f', _, rfl, rfl, by decide⟩, fun fuel rest enough _ => ?_⟩
    cases fuel with
    | zero => cases enough
    | succ fuel => rfl
  | true =>
    refine ⟨⟨'t', _, rfl, rfl, by decide⟩, fun fuel rest enough _ => ?_⟩
    cases fuel with
    | zero => cases enough
    | succ fuel => rfl

theorem isText_null : IsText "null".toList .null := by
  refine ⟨⟨'n', _, rfl, rfl, by decide⟩, fun fuel rest enough _ => ?_⟩
  cases fuel with
  | zero => cases enough
  | succ fuel => rfl

theorem isText_integer (n : Int) :
    IsText (toString n).toList (.number (NumberParts.read (toString n).toList).1) := by
  rcases NumberParts.exists_read_integer n with ⟨leaf, alone⟩
  rw [alone]
  exact isText_number alone

theorem isText_decimal {x : Float} (finite : x.isFinite = true) :
    IsText (numberText x).toList (.number (NumberParts.read (numberText x).toList).1) := by
  rcases NumberParts.exists_read_numberText finite with ⟨leaf, alone⟩
  rw [alone]
  exact isText_number alone

/-- An array whose items are texts, with a gap in front of each item and another one behind the last
of them. -/
theorem isText_arrayOf {write : Json → String} {gap tail : String} (blankGap : Blank gap.toList)
    (blankTail : Blank tail.toList) {v : Json} {items : List Json}
    (texts : ∀ w ∈ v :: items, IsText (write w).toList (ofWritten w)) :
    IsText ("[" ++ gap ++ ("," ++ gap).intercalate ((v :: items).map write) ++ tail ++ "]").toList
      (ofWritten (.array (v :: items))) := by
  let part (w : Json) : List Char × Document := ((write w).toList, ofWritten w)
  have written := toList_bracketed "[" "]" rfl gap tail ((v :: items).map write)
  have texts' : ((v :: items).map write).map String.toList =
      (part v :: items.map part).map Prod.fst := by
    rw [← List.map_cons, List.map_map, List.map_map]
    rfl
  have read : ofWritten (.array (v :: items)) =
      .list ((part v :: items.map part).map Prod.snd) .closed := by
    rw [ofWritten, ofWrittenItems_eq, ← List.map_cons, List.map_map]
    rfl
  rw [written, texts', read]
  refine isText_array blankGap blankTail ?_
  rw [← List.map_cons]
  exact List.forall_mem_map.mpr texts

/-- An object whose values are texts, laid out like an array, with a gap behind each colon. -/
theorem isText_objectOf {write : Json → String} {gap tail colon : String}
    (blankGap : Blank gap.toList) (blankTail : Blank tail.toList) (blankColon : Blank colon.toList)
    {e : String × Json} {entries : List (String × Json)}
    (texts : ∀ other ∈ e :: entries, IsText (write other.2).toList (ofWritten other.2)) :
    IsText ("\x7b" ++ gap ++ ("," ++ gap).intercalate ((e :: entries).map fun e =>
        stringText e.1 ++ ":" ++ colon ++ write e.2) ++ tail ++ "\x7d").toList
      (ofWritten (.object (e :: entries))) := by
  let part (e : String × Json) : String × List Char × Document :=
    (e.1, colon.toList ++ (write e.2).toList, ofWritten e.2)
  have entry (e : String × Json) :
      (stringText e.1 ++ ":" ++ colon ++ write e.2).toList = entryText e.1 (part e).2.1 := by
    simp only [String.toList_append, stringText, String.toList_ofList, List.append_assoc]
    rfl
  have written := toList_bracketed "\x7b" "\x7d" rfl gap tail
    ((e :: entries).map fun e => stringText e.1 ++ ":" ++ colon ++ write e.2)
  have texts' : ((e :: entries).map fun e =>
      stringText e.1 ++ ":" ++ colon ++ write e.2).map String.toList =
      (part e :: entries.map part).map fun e => entryText e.1 e.2.1 := by
    rw [← List.map_cons, List.map_map, List.map_map]
    exact List.map_congr_left fun other _ => entry other
  have read : ofWritten (.object (e :: entries)) =
      .object ((part e :: entries.map part).map fun e => (.pure e.1, e.2.2)) .closed := by
    rw [ofWritten, ofWrittenEntries_eq, ← List.map_cons, List.map_map]
    rfl
  rw [written, texts', read]
  refine isText_object blankGap blankTail ?_
  rw [← List.map_cons]
  refine List.forall_mem_map.mpr fun other inside => ?_
  rcases texts other inside with ⟨⟨c, more, same, -⟩, value⟩
  exact value.blank_append blankColon (same ▸ List.cons_ne_nil c more)

theorem compactItems_eq (items : List Json) : compactItems items = items.map compact := by
  induction items with
  | nil => rfl
  | cons v rest ih => exact congrArg (compact v :: ·) ih

theorem compactEntries_eq (entries : List (String × Json)) :
    compactEntries entries = entries.map fun e => stringText e.1 ++ ":" ++ compact e.2 := by
  induction entries with
  | nil => rfl
  | cons e rest ih => exact congrArg ((stringText e.1 ++ ":" ++ compact e.2) :: ·) ih

theorem prettyItems_eq (level : Nat) (items : List Json) :
    prettyItems level items = items.map (pretty level) := by
  induction items with
  | nil => rfl
  | cons v rest ih => exact congrArg (pretty level v :: ·) ih

theorem prettyEntries_eq (level : Nat) (entries : List (String × Json)) :
    prettyEntries level entries =
      entries.map fun e => stringText e.1 ++ ": " ++ pretty level e.2 := by
  induction entries with
  | nil => rfl
  | cons e rest ih => exact congrArg ((stringText e.1 ++ ": " ++ pretty level e.2) :: ·) ih

theorem isText_emptyArray : IsText "[]".toList (ofWritten (.array [])) := by
  refine ⟨⟨'[', _, rfl, rfl, by decide⟩, fun fuel rest enough _ => ?_⟩
  cases fuel with
  | zero => cases enough
  | succ fuel => rfl

theorem isText_emptyObject : IsText "\x7b\x7d".toList (ofWritten (.object [])) := by
  refine ⟨⟨'\x7b', _, rfl, rfl, by decide⟩, fun fuel rest enough _ => ?_⟩
  have two : 2 ≤ fuel := enough
  obtain ⟨fuel, rfl⟩ := Nat.exists_eq_add_of_le' two
  rfl

theorem blank_lineBreak (level : Nat) : Blank (lineBreak level).toList := by
  rw [lineBreak, String.toList_ofList]
  refine List.forall_mem_cons.mpr ⟨rfl, fun c inside => ?_⟩
  rw [List.eq_of_mem_replicate inside]
  rfl

/-- A value on one line. -/
theorem isText_compact {v : Json} (finite : v.IsFinite) :
    IsText (compact v).toList (ofWritten v) := by
  have blank : Blank "".toList := nofun
  induction finite with
  | null => exact isText_null
  | boolean b => exact isText_boolean b
  | integer n => exact isText_integer n
  | decimal finite => exact isText_decimal finite
  | string s => exact isText_string s
  | @array items _ ih =>
    cases items with
    | nil => exact isText_emptyArray
    | cons v items =>
      have text := isText_arrayOf blank blank ih
      rw [compact, compactItems_eq]
      simpa only [String.append_empty] using text
  | @object entries _ ih =>
    cases entries with
    | nil => exact isText_emptyObject
    | cons e entries =>
      have text := isText_objectOf blank blank blank ih
      rw [compact, compactEntries_eq]
      simpa only [String.append_empty] using text

/-- A value with its items and entries on lines of their own. -/
theorem isText_pretty {v : Json} (finite : v.IsFinite) (level : Nat) :
    IsText (pretty level v).toList (ofWritten v) := by
  have space : Blank " ".toList := by
    rintro c (_ | ⟨_, ⟨⟩⟩)
    rfl
  induction finite generalizing level with
  | null => exact isText_null
  | boolean b => exact isText_boolean b
  | integer n => exact isText_integer n
  | decimal finite => exact isText_decimal finite
  | string s => exact isText_string s
  | @array items _ ih =>
    cases items with
    | nil => exact isText_emptyArray
    | cons v items =>
      rw [pretty, prettyItems_eq]
      exact isText_arrayOf (blank_lineBreak (level + 1)) (blank_lineBreak level)
        fun w inside => ih w inside (level + 1)
  | @object entries _ ih =>
    cases entries with
    | nil => exact isText_emptyObject
    | cons e entries =>
      have text := isText_objectOf (blank_lineBreak (level + 1)) (blank_lineBreak level) space
        fun other inside => ih other inside (level + 1)
      have colon : ":" ++ " " = ": " := rfl
      rw [pretty, prettyEntries_eq]
      simpa only [List.map_cons, String.append_assoc, colon] using text

theorem read_of_isText {text : String} {d : Document} (isText : IsText text.toList d) :
    Document.read text = (d, some []) := by
  have whole := isText.read (2 * text.toList.length + 1) [] (by omega) nofun
  rwa [List.append_nil] at whole

/-- What is read from a value on one line. -/
theorem read_compact {v : Json} (finite : v.IsFinite) :
    Document.read (compact v) = (ofWritten v, some []) :=
  read_of_isText (isText_compact finite)

/-- What is read from a value with its items and entries on lines of their own. -/
theorem read_pretty {v : Json} (finite : v.IsFinite) (level : Nat) :
    Document.read (pretty level v) = (ofWritten v, some []) :=
  read_of_isText (isText_pretty finite level)

end Document

/-! ## Numbers that are read as they were -/

/-- Each number inside of the value is read as it was from its own text. -/
inductive Rereads : Json → Prop
  | null : Rereads .null
  | boolean (b : Bool) : Rereads (.boolean b)
  | integer {n : Int} :
    NumberParts.read (toString n).toList = (.pure (.integer n), some []) → Rereads (.integer n)
  | decimal {x : Float} :
    NumberParts.read (numberText x).toList = (.pure (.decimal x), some []) → Rereads (.decimal x)
  | string (s : String) : Rereads (.string s)
  | array {items : List Json} : (∀ v ∈ items, Rereads v) → Rereads (.array items)
  | object {entries : List (String × Json)} : (∀ e ∈ entries, Rereads e.2) →
    Rereads (.object entries)

theorem numberText_of_not_finite {x : Float} (infinite : ¬x.isFinite = true) :
    numberText x = "null" := by
  rw [Binary64.isFinite_iff] at infinite
  unfold numberText
  split
  · rfl
  · rfl
  · next taken => exact absurd ⟨_, _, _, taken⟩ infinite

namespace Rereads

variable {v : Json} (rereads : v.Rereads)
include rereads

/-- A number that is not finite is written as a word, which is no number. -/
theorem isFinite : v.IsFinite := by
  induction rereads with
  | null => exact .null
  | boolean b => exact .boolean b
  | @integer n _ => exact .integer n
  | @decimal x alone =>
    refine .decimal ?_
    by_contra infinite
    rw [numberText_of_not_finite infinite] at alone
    cases alone
  | string s => exact .string s
  | array _ ih => exact .array ih
  | object _ ih => exact .object ih

theorem ofWritten_eq : Document.ofWritten v = .ofJson v := by
  induction rereads with
  | null => rfl
  | boolean b => rfl
  | integer alone => rw [Document.ofWritten, alone, Document.ofJson]
  | decimal alone => rw [Document.ofWritten, alone, Document.ofJson]
  | string s => rfl
  | @array items _ ih =>
    rw [Document.ofWritten, Document.ofWrittenItems_eq, List.map_congr_left ih, Document.ofJson,
      Document.ofItems_eq]
  | @object entries _ ih =>
    rw [Document.ofWritten, Document.ofWrittenEntries_eq, Document.ofJson, Document.ofEntries_eq]
    congr 1
    exact List.map_congr_left fun e inside => congrArg (Leaf.pure e.1, ·) (ih e inside)

end Rereads

/-- What is made of a value is made of a text from which it is read. -/
theorem decodeText_of_read {α : Type} {decode : Decoder α} {v : Json} {x : α} {text : String}
    (read : Document.read text = (Document.ofWritten v, some [])) (rereads : v.Rereads)
    (made : decode (Document.ofJson v) = .ok x) : decodeText decode text = .ok x := by
  rw [decodeText_eq_ok, read, rereads.ofWritten_eq]
  exact ⟨made, rfl⟩

end Nonlocal.Json
