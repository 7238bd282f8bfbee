import KeyedRecords.Proofs.Counters.Merge
import KeyedRecords.Proofs.Cursor
import KeyedRecords.Proofs.Lists
import KeyedRecords.Proofs.Text.Split
import KeyedRecords.Update.Expression

/-! An update can be read off its expression. A placeholder holds neither a blank nor a comma nor a point, so these cut
the text where it was put together, and as no two names have one placeholder each one stands for what it was made for.
Main statement: `Update.expression_faithful`. -/

namespace KeyedRecords

/-! ## Cutting texts -/

namespace Text

def words (text : List Char) : List (List Char) := (splitAll ' ' text).filter (· ≠ [])

theorem words_blank (text : List Char) : words (' ' :: text) = words text := rfl

theorem words_of_not_mem {word : List Char} (hne : word ≠ []) (h : ' ' ∉ word) : words word = [word] := by
  simp [words, splitAll_of_not_mem h, hne]

theorem words_append {word : List Char} (hne : word ≠ []) (h : ' ' ∉ word) (rest : List Char) :
    words (word ++ ' ' :: rest) = word :: words rest := by
  simp [words, splitAll_append h, hne]

/-- A list with a blank after each comma is cut into its parts, all but the first with a blank before them. -/
theorem splitAll_listed {front first : List Char} {others : List (List Char)} (hfront : ',' ∉ front)
    (h : ∀ part ∈ first :: others, ',' ∉ part) :
    splitAll ',' (front ++ [',', ' '].intercalate (first :: others)) =
      (front ++ first) :: others.map (' ' :: ·) := by
  -- Each step takes the blank after a comma into the front of the next part.
  induction others generalizing front first with
  | nil =>
    rw [List.intercalate_singleton, splitAll_of_not_mem]
    · rfl
    · simp [hfront, h first List.mem_cons_self]
  | cons next rest ih =>
    obtain ⟨hfirst, hothers⟩ := List.forall_mem_cons.1 h
    have hrest := @ih [' '] next (by decide) hothers
    rw [List.intercalate_cons_cons, ← List.append_assoc, ← List.append_assoc,
      List.append_assoc _ _ (List.intercalate _ _)]
    show splitAll ',' ((front ++ first) ++ ',' :: ([' '] ++ [',', ' '].intercalate (next :: rest))) = _
    rw [splitAll_append (by simp [hfront, hfirst]), hrest]
    rfl

end Text

/-! ## Reading expressions -/

namespace UpdateExpression

def phrases (expression : UpdateExpression) : List (List (List Char)) :=
  (Text.splitAll ',' expression.text.toList).map Text.words

/-- The assignment that a clause stands for. Its words are a path, the sign of the action if it has one, and a value. -/
def assignment? (expression : UpdateExpression) (action : UpdateAction) (clause : List (List Char)) :
    Option Assignment :=
  match action, clause with
  | .set, [path, ['='], value] | .add, [path, value] => do
    let path ← (Text.splitAll '.' path).mapM fun name => Assoc.find? expression.names (String.ofList name)
    let value ← Assoc.find? expression.values (String.ofList value)
    pure ⟨path, value⟩
  | _, _ => none

def action? (word : List Char) : Option UpdateAction :=
  if word = "SET".toList then some .set else if word = "ADD".toList then some .add else none

/-- The update that an expression stands for, every placeholder in it replaced by the name or the value that it has. -/
def read? (expression : UpdateExpression) : Option Update :=
  match expression.phrases with
  | (keyword :: first) :: others => do
    let action ← action? keyword
    let assignments ← (first :: others).mapM (expression.assignment? action)
    pure ⟨action, assignments⟩
  | _ => none

def placeholders (expression : UpdateExpression) (sign : Char) : List String :=
  ((expression.phrases.flatten.flatMap (Text.splitAll '.')).filter (·.head? = some sign)).map String.ofList

end UpdateExpression

/-! ## Placeholders -/

namespace Update

theorem toList_placeholder (stem : String) (index : Nat) :
    (placeholder stem index).toList = stem.toList ++ Nat.toDigits 10 index := by
  simp [placeholder, toString]

theorem placeholder_injective (stem : String) : Function.Injective (placeholder stem) := by
  intro i j h
  have hlist := congrArg String.toList h
  rw [toList_placeholder, toList_placeholder] at hlist
  have hdigits := congrArg Digits.value (List.append_cancel_left hlist)
  rwa [Digits.value_toDigits, Digits.value_toDigits] at hdigits

/-- The characters that part the words of an expression. -/
def separators : List Char := [' ', ',', '.']

theorem not_mem_digits {c : Char} (hc : c ∈ separators) (index : Nat) : c ∉ Nat.toDigits 10 index := by
  intro hmem
  have hdigit : c.isDigit = true := Digits.isDigit_of_mem_toDigits hmem
  simp only [separators, List.mem_cons, List.not_mem_nil, or_false] at hc
  rcases hc with rfl | rfl | rfl <;> exact absurd hdigit (by decide)

theorem not_mem_placeholder {stem : String} (hstem : ∀ c ∈ separators, c ∉ stem.toList) {c : Char}
    (hc : c ∈ separators) (index : Nat) : c ∉ (placeholder stem index).toList := by
  rw [toList_placeholder, List.mem_append, not_or]
  exact ⟨hstem c hc, not_mem_digits hc index⟩

theorem not_mem_namePlaceholder {c : Char} (hc : c ∈ separators) (index : Nat) :
    c ∉ (namePlaceholder index).toList := not_mem_placeholder (by simp [separators]) hc index

theorem not_mem_valuePlaceholder {c : Char} (hc : c ∈ separators) (index : Nat) :
    c ∉ (valuePlaceholder index).toList := not_mem_placeholder (by simp [separators]) hc index

/-! ## Paths and clauses -/

theorem toList_pathExpression (names path : List String) : (pathExpression names path).toList =
    ['.'].intercalate (path.map fun name => (namePlaceholder (names.idxOf name)).toList) := by
  rw [pathExpression, String.toList_intercalate, List.map_map]
  rfl

theorem not_mem_pathExpression {c : Char} (hc : c = ' ' ∨ c = ',') (names path : List String) :
    c ∉ (pathExpression names path).toList := by
  rw [toList_pathExpression]
  refine Text.not_mem_intercalate ?_ fun part hpart => ?_
  · rcases hc with rfl | rfl <;> decide
  · obtain ⟨name, -, rfl⟩ := List.mem_map.1 hpart
    refine not_mem_namePlaceholder ?_ _
    rcases hc with rfl | rfl <;> decide

theorem splitAll_pathExpression {path : List String} (hpath : path ≠ []) (names : List String) :
    Text.splitAll '.' (pathExpression names path).toList =
      path.map fun name => (namePlaceholder (names.idxOf name)).toList := by
  rw [toList_pathExpression]
  refine Text.splitAll_intercalate (by simpa using hpath) fun part hpart => ?_
  obtain ⟨name, -, rfl⟩ := List.mem_map.1 hpart
  exact not_mem_namePlaceholder (by decide) _

theorem pathExpression_ne_nil {path : List String} (hpath : path ≠ []) (names : List String) :
    (pathExpression names path).toList ≠ [] := by
  obtain ⟨name, rest, rfl⟩ := List.exists_cons_of_ne_nil hpath
  intro hnil
  have hparts := splitAll_pathExpression hpath names
  rw [hnil, List.map_cons, toList_placeholder] at hparts
  cases hparts

def jointWords : UpdateAction → List (List Char)
  | .set => [['=']]
  | .add => []

variable (update : Update)

def clause (entry : Assignment × Nat) : String :=
  pathExpression update.pathNames entry.1.path ++ joint update.action ++ valuePlaceholder entry.2

theorem clauses_eq : update.clauses = update.assignments.zipIdx.map update.clause := rfl

def clauseWords (entry : Assignment × Nat) : List (List Char) :=
  (pathExpression update.pathNames entry.1.path).toList ::
    (jointWords update.action ++ [(valuePlaceholder entry.2).toList])

theorem words_clause {entry : Assignment × Nat} (hpath : entry.1.path ≠ []) :
    Text.words (update.clause entry).toList = update.clauseWords entry := by
  have hvalue : Text.words (valuePlaceholder entry.2).toList = [(valuePlaceholder entry.2).toList] :=
    Text.words_of_not_mem (by simp [toList_placeholder]) (not_mem_valuePlaceholder (by decide) _)
  have hcut := Text.words_append (pathExpression_ne_nil hpath update.pathNames)
    (not_mem_pathExpression (Or.inl rfl) update.pathNames entry.1.path)
  rw [clause, String.toList_append, String.toList_append, List.append_assoc, clauseWords]
  cases update.action with
  | set =>
    show Text.words (_ ++ ' ' :: (['='] ++ ' ' :: (valuePlaceholder entry.2).toList)) = _
    rw [hcut, Text.words_append (by decide) (by decide), hvalue]
    rfl
  | add =>
    show Text.words (_ ++ ' ' :: (valuePlaceholder entry.2).toList) = _
    rw [hcut, hvalue]
    rfl

theorem not_mem_clause (entry : Assignment × Nat) : ',' ∉ (update.clause entry).toList := by
  have hpath := not_mem_pathExpression (Or.inr rfl) update.pathNames entry.1.path
  have hvalue := not_mem_valuePlaceholder (c := ',') (by decide) entry.2
  have hjoint : ',' ∉ (joint update.action).toList := by cases update.action <;> decide
  simp [clause, hpath, hvalue, hjoint]

variable {update} (hne : update.assignments ≠ []) (hpaths : ∀ assignment ∈ update.assignments, assignment.path ≠ [])

theorem path_ne_nil_of_mem_zipIdx (hpaths : ∀ assignment ∈ update.assignments, assignment.path ≠ [])
    {entry : Assignment × Nat} (h : entry ∈ update.assignments.zipIdx) : entry.1.path ≠ [] :=
  hpaths _ (List.fst_mem_of_mem_zipIdx h)

include hne hpaths

/-- The words of an expression are those of its clauses, after the keyword. -/
theorem phrases_expression : ∃ first others, update.assignments.zipIdx.map update.clauseWords = first :: others ∧
    update.expression.phrases = ((keyword update.action).toList :: first) :: others := by
  obtain ⟨entry, entries, hzip⟩ : ∃ entry entries, update.assignments.zipIdx = entry :: entries :=
    List.exists_cons_of_ne_nil (by simpa using hne)
  refine ⟨update.clauseWords entry, entries.map update.clauseWords, by rw [hzip, List.map_cons], ?_⟩
  have hwords : ∀ e ∈ entry :: entries, Text.words (update.clause e).toList = update.clauseWords e :=
    fun e he => update.words_clause (path_ne_nil_of_mem_zipIdx hpaths (hzip ▸ he))
  have hkeyword : ' ' ∉ (keyword update.action).toList ∧ ',' ∉ (keyword update.action).toList ∧
      (keyword update.action).toList ≠ [] := by cases update.action <;> decide
  have htext : update.expression.text.toList = ((keyword update.action).toList ++ [' ']) ++
      [',', ' '].intercalate ((update.clause entry).toList :: entries.map fun e => (update.clause e).toList) := by
    simp [expression, clauses_eq, hzip, Function.comp_def]
  rw [UpdateExpression.phrases, htext, Text.splitAll_listed (by simp [hkeyword]), List.map_cons, List.append_assoc,
    List.singleton_append, Text.words_append hkeyword.2.2 hkeyword.1, hwords entry List.mem_cons_self, List.map_map,
    List.map_map]
  · refine congrArg _ (List.map_congr_left fun e he => ?_)
    exact (Text.words_blank _).trans (hwords e (List.mem_cons_of_mem _ he))
  · intro part hpart
    obtain ⟨e, -, rfl⟩ :=
      List.mem_map.1 (show part ∈ (entry :: entries).map fun e => (update.clause e).toList from hpart)
    exact update.not_mem_clause e

omit hne hpaths

/-! ## Looking placeholders up -/

theorem nodup_pathNames : update.pathNames.Nodup := nodup_eraseDups _

theorem mem_pathNames {name : String} :
    name ∈ update.pathNames ↔ ∃ assignment ∈ update.assignments, name ∈ assignment.path := by
  rw [pathNames, List.mem_eraseDups, List.mem_flatMap]

section Placeholders

variable {α β : Type} (l : List α) (f : α → β) {placeholder : Nat → String} (hinj : Function.Injective placeholder)

include hinj

theorem nodup_placeholders : (Assoc.keys (l.zipIdx.map fun (a, i) => (placeholder i, f a))).Nodup := by
  have hkeys : Assoc.keys (l.zipIdx.map fun (a, i) => (placeholder i, f a)) =
      (List.range' 0 l.length).map placeholder := by
    rw [Assoc.keys, List.map_map, ← List.zipIdx_map_snd, List.map_map]
    rfl
  rw [hkeys]
  exact List.Nodup.map hinj List.nodup_range'

theorem perm_placeholders : (Assoc.ofList (l.zipIdx.map fun (a, i) => (placeholder i, f a))).Perm
    (l.zipIdx.map fun (a, i) => (placeholder i, f a)) := Assoc.perm_ofList (nodup_placeholders l f hinj)

theorem find?_placeholder {a : α} {i : Nat} (h : (a, i) ∈ l.zipIdx) :
    Assoc.find? (Assoc.ofList (l.zipIdx.map fun (a, i) => (placeholder i, f a))) (placeholder i) = some (f a) := by
  rw [Assoc.find?_ofList (nodup_placeholders l f hinj)]
  exact Assoc.find?_of_mem (nodup_placeholders l f hinj) (List.mem_map_of_mem h)

theorem mem_keys_placeholders {word : String} :
    word ∈ Assoc.keys (Assoc.ofList (l.zipIdx.map fun (a, i) => (placeholder i, f a))) ↔
      ∃ entry ∈ l.zipIdx, placeholder entry.2 = word := by
  rw [Assoc.keys, ((perm_placeholders l f hinj).map _).mem_iff, List.map_map, List.mem_map]
  rfl

end Placeholders

theorem find?_names {name : String} (h : name ∈ update.pathNames) :
    Assoc.find? update.expression.names (namePlaceholder (update.pathNames.idxOf name)) = some name :=
  find?_placeholder _ id (placeholder_injective _) ((mem_zipIdx_iff_idxOf nodup_pathNames).2 ⟨h, rfl⟩)

theorem find?_values {entry : Assignment × Nat} (h : entry ∈ update.assignments.zipIdx) :
    Assoc.find? update.expression.values (valuePlaceholder entry.2) = some entry.1.value :=
  find?_placeholder _ Assignment.value (placeholder_injective _) h

theorem mem_keys_names {word : String} : word ∈ Assoc.keys update.expression.names ↔
    ∃ name ∈ update.pathNames, namePlaceholder (update.pathNames.idxOf name) = word := by
  refine (mem_keys_placeholders update.pathNames id (placeholder_injective _)).trans ?_
  constructor
  · rintro ⟨⟨name, i⟩, hentry, rfl⟩
    obtain ⟨hname, rfl⟩ := (mem_zipIdx_iff_idxOf nodup_pathNames).1 hentry
    exact ⟨name, hname, rfl⟩
  · rintro ⟨name, hname, rfl⟩
    exact ⟨(name, _), (mem_zipIdx_iff_idxOf nodup_pathNames).2 ⟨hname, rfl⟩, rfl⟩

theorem mem_keys_values {word : String} : word ∈ Assoc.keys update.expression.values ↔
    ∃ entry ∈ update.assignments.zipIdx, valuePlaceholder entry.2 = word :=
  mem_keys_placeholders _ Assignment.value (placeholder_injective _)

/-- The names that placeholders stand for are those on the paths, each once. -/
theorem perm_pathNames : (update.expression.names.map (·.2)).Perm update.pathNames := by
  have hperm := perm_placeholders update.pathNames id (placeholder_injective "#n")
  refine (hperm.map (·.2)).trans (List.Perm.of_eq ?_)
  rw [List.map_map]
  exact List.zipIdx_map_fst 0 _

/-! ## Growing names

Placeholders may be given out while the paths are gone through, each new name taking the next: they come out the
same. -/

/-- The placeholders that names have been given, and what the placeholders stand for. -/
structure Naming where
  placeholders : List (String × String) := []
  names : List (String × String) := []

/-- A name is given the next placeholder if it has none. -/
def Naming.add (naming : Naming) (name : String) : Naming :=
  if Assoc.contains naming.placeholders name then naming
  else
    let placeholder := namePlaceholder naming.names.length
    ⟨Assoc.insert naming.placeholders name placeholder, Assoc.insert naming.names placeholder name⟩

/-- The naming of some names, numbered in their order. -/
def Naming.numbered (names : List String) : Naming where
  placeholders := Assoc.ofList (names.zipIdx.map fun (name, i) => (name, namePlaceholder i))
  names := Assoc.ofList (names.zipIdx.map fun (name, i) => (namePlaceholder i, name))

theorem Naming.keys_numbered (names : List String) :
    Assoc.keys (names.zipIdx.map fun (name, i) => (name, namePlaceholder i)) = names := by
  rw [Assoc.keys, List.map_map]
  exact List.zipIdx_map_fst 0 names

theorem Naming.find?_numbered {names : List String} (hnodup : names.Nodup) {name : String} (h : name ∈ names) :
    Assoc.find? (numbered names).placeholders name = some (namePlaceholder (names.idxOf name)) := by
  have hkeys := (keys_numbered names).symm ▸ hnodup
  rw [numbered, Assoc.find?_ofList hkeys]
  exact Assoc.find?_of_mem hkeys (List.mem_map_of_mem ((mem_zipIdx_iff_idxOf hnodup).2 ⟨h, rfl⟩))

theorem Naming.add_numbered (names : List String) (name : String) :
    (numbered names).add name = numbered (if name ∈ names then names else names ++ [name]) := by
  have hknown : Assoc.contains (numbered names).placeholders name = true ↔ name ∈ names := by
    rw [Assoc.contains, Option.isSome_iff_ne_none, numbered, Ne, Assoc.find?_ofList_eq_none_iff, not_not, keys_numbered]
  have hlength : (numbered names).names.length = names.length :=
    (perm_placeholders names id (placeholder_injective "#n")).length_eq.trans (by simp)
  rw [add, hlength]
  by_cases h : name ∈ names
  · rw [if_pos (hknown.2 h), if_pos h]
  · have hzip : (names ++ [name]).zipIdx = names.zipIdx ++ [(name, names.length)] := by
      simp [List.zipIdx_append]
    rw [if_neg (mt hknown.1 h), if_neg h, numbered, numbered, hzip, List.map_append, List.map_append]
    exact congrArg₂ Naming.mk (Assoc.ofList_concat ..).symm (Assoc.ofList_concat ..).symm

/-- Names that are numbered as they come are numbered by first appearance. -/
theorem Naming.foldl_add (names : List String) : names.foldl Naming.add {} = numbered names.eraseDups := by
  induction names using List.reverseRecOn with
  | nil => rfl
  | append_singleton names name ih =>
    rw [List.foldl_append, ih, List.foldl_cons, List.foldl_nil, add_numbered, List.eraseDups_append]
    by_cases h : name ∈ names <;> simp [h, List.removeAll, List.eraseDups_cons]

/-- The naming that grows while the paths of an update are gone through. -/
def naming (update : Update) : Naming := (update.assignments.flatMap (·.path)).foldl Naming.add {}

theorem naming_eq (update : Update) : update.naming = .numbered update.pathNames := Naming.foldl_add _

/-! ## Reading an expression back -/

theorem mapM_names {path : List String} (h : ∀ name ∈ path, name ∈ update.pathNames) :
    (path.map fun name => (namePlaceholder (update.pathNames.idxOf name)).toList).mapM
      (fun name => Assoc.find? update.expression.names (String.ofList name)) = some path := by
  rw [List.mapM_map]
  refine (mapM_eq_some_map (g := id) fun name hname => ?_).trans (by rw [List.map_id])
  rw [Function.comp_apply, String.ofList_toList]
  exact find?_names (h name hname)

theorem assignment?_clauseWords (hpaths : ∀ assignment ∈ update.assignments, assignment.path ≠ [])
    {entry : Assignment × Nat} (h : entry ∈ update.assignments.zipIdx) :
    update.expression.assignment? update.action (update.clauseWords entry) = some entry.1 := by
  have hnames := @mapM_names update entry.1.path fun name hname =>
    mem_pathNames.2 ⟨entry.1, List.fst_mem_of_mem_zipIdx h, hname⟩
  have hvalue := find?_values h
  have hsplit := splitAll_pathExpression (path_ne_nil_of_mem_zipIdx hpaths h) update.pathNames
  rw [clauseWords]
  cases haction : update.action <;>
    simp [jointWords, UpdateExpression.assignment?, hsplit, hnames, hvalue]

theorem action?_keyword (action : UpdateAction) : UpdateExpression.action? (keyword action).toList = some action := by
  cases action <;> rfl

include hne hpaths

theorem read?_expression : update.expression.read? = some update := by
  obtain ⟨first, others, hclauses, hphrases⟩ := phrases_expression hne hpaths
  -- Clause by clause, so the order of the assignments is that of the clauses.
  have hassignments : (first :: others).mapM (update.expression.assignment? update.action) =
      some update.assignments := by
    rw [← hclauses, List.mapM_map]
    refine (mapM_eq_some_map (g := Prod.fst) fun entry hentry => ?_).trans (by rw [List.zipIdx_map_fst])
    exact assignment?_clauseWords hpaths hentry
  rw [UpdateExpression.read?, hphrases]
  simp only [action?_keyword, Option.bind_eq_bind, Option.bind_some, hassignments]
  rfl

/-! ## The placeholders in an expression -/

/-- The parts of the words of an expression are its keyword and, clause by clause, the placeholders of the names on the
path, the word between path and value, and the placeholder of the value. -/
theorem mem_parts {part : List Char} : part ∈ update.expression.phrases.flatten.flatMap (Text.splitAll '.') ↔
    part = (keyword update.action).toList ∨ ∃ entry ∈ update.assignments.zipIdx,
      (∃ name ∈ entry.1.path, (namePlaceholder (update.pathNames.idxOf name)).toList = part) ∨
        part ∈ jointWords update.action ∨ part = (valuePlaceholder entry.2).toList := by
  obtain ⟨first, others, hclauses, hphrases⟩ := phrases_expression hne hpaths
  have hkeyword : Text.splitAll '.' (keyword update.action).toList = [(keyword update.action).toList] := by
    cases update.action <;> rfl
  have hjoint : (jointWords update.action).flatMap (Text.splitAll '.') = jointWords update.action := by
    cases update.action <;> rfl
  have hclause : ∀ entry ∈ update.assignments.zipIdx, (update.clauseWords entry).flatMap (Text.splitAll '.') =
      (entry.1.path.map fun name => (namePlaceholder (update.pathNames.idxOf name)).toList) ++
        (jointWords update.action ++ [(valuePlaceholder entry.2).toList]) := by
    intro entry hentry
    rw [clauseWords, List.flatMap_cons, List.flatMap_append, List.flatMap_singleton, hjoint,
      splitAll_pathExpression (path_ne_nil_of_mem_zipIdx hpaths hentry),
      Text.splitAll_of_not_mem (not_mem_valuePlaceholder (by decide) _)]
  have hflatten : update.expression.phrases.flatten =
      (keyword update.action).toList :: (update.assignments.zipIdx.map update.clauseWords).flatten := by
    rw [hphrases, hclauses]
    rfl
  rw [hflatten, List.flatMap_cons, hkeyword, List.singleton_append, List.mem_cons, ← List.flatMap_def,
    List.flatMap_assoc, List.mem_flatMap]
  refine or_congr_right (exists_congr fun entry => and_congr_right fun hentry => ?_)
  rw [hclause entry hentry, List.mem_append, List.mem_append, List.mem_map, List.mem_singleton]

theorem mem_placeholders {sign : Char} (hsign : sign = '#' ∨ sign = ':') {word : String} :
    word ∈ update.expression.placeholders sign ↔ ∃ entry ∈ update.assignments.zipIdx,
      (sign = '#' ∧ ∃ name ∈ entry.1.path, namePlaceholder (update.pathNames.idxOf name) = word) ∨
        (sign = ':' ∧ valuePlaceholder entry.2 = word) := by
  have hkeyword : ∀ action, (keyword action).toList.head? ≠ some sign := by
    rintro (_ | _) <;> rcases hsign with rfl | rfl <;> decide
  have hwords : ∀ action, ∀ part ∈ jointWords action, part.head? ≠ some sign := by
    rintro (_ | _) <;> rcases hsign with rfl | rfl <;> decide
  rw [UpdateExpression.placeholders, List.mem_map]
  constructor
  · rintro ⟨part, hpart, rfl⟩
    obtain ⟨hpart, hhead⟩ := List.mem_filter.1 hpart
    replace hhead : part.head? = some sign := of_decide_eq_true hhead
    rcases (mem_parts hne hpaths).1 hpart with rfl | ⟨entry, hentry, ⟨name, hname, rfl⟩ | hjoint | rfl⟩
    · exact absurd hhead (hkeyword _)
    · rw [toList_placeholder] at hhead
      exact ⟨entry, hentry, Or.inl ⟨(Option.some.inj hhead).symm, name, hname, String.ofList_toList.symm⟩⟩
    · exact absurd hhead (hwords _ part hjoint)
    · rw [toList_placeholder] at hhead
      exact ⟨entry, hentry, Or.inr ⟨(Option.some.inj hhead).symm, String.ofList_toList.symm⟩⟩
  · rintro ⟨entry, hentry, ⟨rfl, name, hname, rfl⟩ | ⟨rfl, rfl⟩⟩
    · refine ⟨_, List.mem_filter.2 ⟨(mem_parts hne hpaths).2 (Or.inr ⟨_, hentry, Or.inl ⟨name, hname, rfl⟩⟩), ?_⟩,
        String.ofList_toList⟩
      simp [toList_placeholder]
    · refine ⟨_, List.mem_filter.2 ⟨(mem_parts hne hpaths).2 (Or.inr ⟨_, hentry, Or.inr (Or.inr rfl)⟩), ?_⟩,
        String.ofList_toList⟩
      simp [toList_placeholder]

/-- The placeholders used for names are those that stand for one. -/
theorem mem_namePlaceholders {word : String} :
    word ∈ update.expression.placeholders '#' ↔ word ∈ Assoc.keys update.expression.names := by
  rw [mem_placeholders hne hpaths (Or.inl rfl), mem_keys_names]
  constructor
  · rintro ⟨entry, hentry, ⟨-, name, hname, hword⟩ | ⟨hsign, -⟩⟩
    · exact ⟨name, mem_pathNames.2 ⟨_, List.fst_mem_of_mem_zipIdx hentry, hname⟩, hword⟩
    · exact absurd hsign (by decide)
  · rintro ⟨name, hname, hword⟩
    obtain ⟨assignment, hassignment, hname⟩ := mem_pathNames.1 hname
    obtain ⟨i, hi⟩ := List.mem_iff_getElem?.1 hassignment
    exact ⟨(assignment, i), List.mem_zipIdx_iff_getElem?.2 hi, Or.inl ⟨rfl, name, hname, hword⟩⟩

/-- The placeholders used for values are those that stand for one. -/
theorem mem_valuePlaceholders {word : String} :
    word ∈ update.expression.placeholders ':' ↔ word ∈ Assoc.keys update.expression.values := by
  rw [mem_placeholders hne hpaths (Or.inr rfl), mem_keys_values]
  refine exists_congr fun entry => and_congr_right fun _ => ?_
  simp

omit hne hpaths

/-- An expression holds its update. With the placeholders replaced it reads as the keyword of the action and the
assignments in their order, a name and its placeholder determine each other, and the placeholders used are those that
are defined. They are the ones that the names would be given while the paths are gone through. -/
theorem expression_faithful {update : Update} (hne : update.assignments ≠ [])
    (hpaths : ∀ assignment ∈ update.assignments, assignment.path ≠ []) : update.expression.read? = some update ∧
    (Assoc.keys update.expression.names).Nodup ∧ (update.expression.names.map (·.2)).Nodup ∧
    (∀ name, name ∈ update.expression.names.map (·.2) ↔
      ∃ assignment ∈ update.assignments, name ∈ assignment.path) ∧
    (Assoc.keys update.expression.values).Nodup ∧
    (∀ word, word ∈ update.expression.placeholders '#' ↔ word ∈ Assoc.keys update.expression.names) ∧
    (∀ word, word ∈ update.expression.placeholders ':' ↔ word ∈ Assoc.keys update.expression.values) ∧
    update.naming.names = update.expression.names ∧
    ∀ assignment ∈ update.assignments, ∀ name ∈ assignment.path, Assoc.find? update.naming.placeholders name =
      some (namePlaceholder (update.pathNames.idxOf name)) := by
  refine ⟨read?_expression hne hpaths, (Assoc.sorted_ofList _).nodup, perm_pathNames.nodup_iff.2 nodup_pathNames,
    fun name => perm_pathNames.mem_iff.trans mem_pathNames, (Assoc.sorted_ofList _).nodup,
    fun _ => mem_namePlaceholders hne hpaths, fun _ => mem_valuePlaceholders hne hpaths, ?_, ?_⟩
  · rw [naming_eq]
    rfl
  · intro assignment hassignment name hname
    rw [naming_eq]
    exact Naming.find?_numbered nodup_pathNames (mem_pathNames.2 ⟨assignment, hassignment, hname⟩)

/-- Two fields of a map, one of them in a map of its own that has a field of the outer map's name. -/
def nestedFields : Update :=
  set [("data", .map [("owner", .map [("data", .string "ann")]), ("views", .number "1")])]

theorem expression_faithful_nested : nestedFields.expression.text = "SET #n0.#n1.#n0 = :v0, #n0.#n2 = :v1" ∧
    nestedFields.expression.read? = some nestedFields ∧
    (∀ word, word ∈ nestedFields.expression.placeholders '#' ↔ word ∈ ["#n0", "#n1", "#n2"]) := by
  obtain ⟨hread, -, -, -, -, hnames, -⟩ := @expression_faithful nestedFields (by decide) (by decide)
  exact ⟨by decide, hread, hnames⟩

end Update

end KeyedRecords
