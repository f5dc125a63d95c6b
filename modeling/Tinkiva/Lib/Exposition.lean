import Mathlib.Tactic.Common

/-!
# The text format of metrics

A page of metrics is a list of families, and a family has a name, a kind and samples.
`print` writes it, one line for the `TYPE` of a family and one for each sample, and
`parse` is a scraper: it reads a page or refuses it.

* `parse_print` is the round trip for the pages that are `Printable`: the names are names,
  and no text breaks a line.
* `Page.WellFormed` are the rules of the format that a page may still break: no two
  families have one name, no two samples are of one series, and a family of kind
  `histogram` or `counter` has the samples that such a family may have.
-/

namespace Exposition

/-- One sample: the name and the labels of its series, and its value. -/
structure Sample where
  name : String
  labels : List (String × String)
  value : String
  deriving DecidableEq, Repr

/-- The samples behind one `TYPE`. -/
structure Family where
  name : String
  kind : String
  samples : List Sample
  deriving DecidableEq, Repr

/-! ## Printing -/

/-- A character of the value of a label, as it stands between the quotes. -/
def escape (c : Char) : List Char :=
  if c = '\\' then ['\\', '\\'] else if c = '"' then ['\\', '"']
  else if c = '\n' then ['\\', 'n'] else [c]

def Sample.labelText (label : String × String) : List Char :=
  label.1.toList ++ '=' :: '"' :: label.2.toList.flatMap escape ++ ['"']

/-- The labels, in braces if there are any. -/
def Sample.labelsText : List (String × String) → List Char
  | [] => []
  | label :: rest => '{' :: labelText label ++ rest.flatMap (fun l => ',' :: labelText l) ++ ['}']

/-- The line of a sample. -/
def Sample.line (sample : Sample) : List Char :=
  sample.name.toList ++ labelsText sample.labels ++ ' ' :: sample.value.toList

/-- How the line of a family begins. -/
def typePrefix : List Char := ['#', ' ', 'T', 'Y', 'P', 'E', ' ']

/-- The line that opens a family. -/
def Family.line (family : Family) : List Char :=
  typePrefix ++ family.name.toList ++ ' ' :: family.kind.toList

/-- The lines of a family. -/
def Family.lines (family : Family) : List (List Char) :=
  family.line :: family.samples.map Sample.line

/-- The text of a page. -/
def print (page : List Family) : String :=
  String.ofList ((page.flatMap Family.lines).flatMap fun line => line ++ ['\n'])

/-- The text of a sample. -/
def Sample.text (sample : Sample) : String := String.ofList (sample.line ++ ['\n'])

/-- The text of a family. -/
def Family.text (family : Family) : String :=
  String.ofList (family.line ++ ['\n']) ++ String.join (family.samples.map Sample.text)

theorem print_eq (page : List Family) : print page = String.join (page.map Family.text) := by
  rw [← String.toList_inj, print, String.toList_ofList]
  induction page with
  | nil => rfl
  | cons family page ih =>
    simp only [List.flatMap_cons, List.flatMap_append, ih, List.map_cons, String.join_cons,
      String.toList_append, Family.text, Family.lines, String.toList_ofList, String.toList_join,
      List.flatMap_map, Sample.text]

/-! ## Parsing -/

/-- The characters of names. -/
def isNameChar (c : Char) : Bool := c.isAlphanum || c == '_' || c == ':'

/-- The value of a label behind its first quote, and what is behind the last one. -/
def readValue : List Char → Option (List Char × List Char)
  | [] => none
  | '"' :: rest => some ([], rest)
  | '\\' :: '\\' :: rest => (readValue rest).map fun p => ('\\' :: p.1, p.2)
  | '\\' :: '"' :: rest => (readValue rest).map fun p => ('"' :: p.1, p.2)
  | '\\' :: 'n' :: rest => (readValue rest).map fun p => ('\n' :: p.1, p.2)
  | '\\' :: _ => none
  | c :: rest => (readValue rest).map fun p => (c :: p.1, p.2)

/-- One label, and what is behind it. -/
def readLabel (cs : List Char) : Option ((String × String) × List Char) :=
  match cs.dropWhile isNameChar with
  | '=' :: '"' :: rest =>
    (readValue rest).map fun p =>
      ((String.ofList (cs.takeWhile isNameChar), String.ofList p.1), p.2)
  | _ => none

/-- The labels behind the opening brace, at most `n`, and what is behind the closing one. -/
def readLabels : Nat → List Char → Option (List (String × String) × List Char)
  | 0, _ => none
  | n + 1, cs =>
    match readLabel cs with
    | some (label, '}' :: rest) => some ([label], rest)
    | some (label, ',' :: rest) => (readLabels n rest).map fun p => (label :: p.1, p.2)
    | _ => none

/-- The value of a sample, behind its name and labels. -/
def readSampleValue (name : String) (labels : List (String × String)) : List Char → Option Sample
  | ' ' :: value => if ' ' ∈ value then none else some ⟨name, labels, String.ofList value⟩
  | _ => none

/-- A sample from its line. -/
def readSample (line : List Char) : Option Sample :=
  match line.dropWhile isNameChar with
  | '{' :: rest =>
    (readLabels line.length rest).bind fun p =>
      readSampleValue (String.ofList (line.takeWhile isNameChar)) p.1 p.2
  | rest => readSampleValue (String.ofList (line.takeWhile isNameChar)) [] rest

/-- What a line says. -/
inductive Line where
  | type (name kind : String)
  | sample (sample : Sample)
  deriving DecidableEq, Repr

/-- A line: a `TYPE` or a sample. -/
def readLine (line : List Char) : Option Line :=
  if line.take 7 = typePrefix then
    match (line.drop 7).dropWhile isNameChar with
    | ' ' :: kind =>
      some (.type (String.ofList ((line.drop 7).takeWhile isNameChar)) (String.ofList kind))
    | _ => none
  else (readSample line).map .sample

/-- The samples before the first `TYPE`, and the families. -/
def group : List Line → List Sample × List Family
  | [] => ([], [])
  | .type name kind :: rest => ([], ⟨name, kind, (group rest).1⟩ :: (group rest).2)
  | .sample sample :: rest => (sample :: (group rest).1, (group rest).2)

/-- Reads a page.  Every line ends, and every sample is behind a `TYPE`. -/
def parse (text : String) : Option (List Family) :=
  let pieces := text.toList.splitOn '\n'
  if pieces.getLast? = some [] then
    (pieces.dropLast.mapM readLine).bind fun lines =>
      if (group lines).1 = [] then some (group lines).2 else none
  else none

/-! ## What can be printed -/

/-- A text of name characters. -/
def IsName (text : String) : Prop := ∀ c ∈ text.toList, isNameChar c = true

structure Sample.Printable (sample : Sample) : Prop where
  name : IsName sample.name
  labels : ∀ label ∈ sample.labels, IsName label.1
  value : ∀ c ∈ sample.value.toList, c ≠ ' ' ∧ c ≠ '\n'

structure Family.Printable (family : Family) : Prop where
  name : IsName family.name
  kind : '\n' ∉ family.kind.toList
  samples : ∀ sample ∈ family.samples, sample.Printable

/-! ## The round trip -/

theorem takeWhile_name {name rest : List Char} {c : Char} (h : ∀ d ∈ name, isNameChar d = true)
    (hc : isNameChar c = false) : (name ++ c :: rest).takeWhile isNameChar = name := by
  rw [List.takeWhile_append_of_pos h, List.takeWhile_cons_of_neg (by simp [hc]), List.append_nil]

theorem dropWhile_name {name rest : List Char} {c : Char} (h : ∀ d ∈ name, isNameChar d = true)
    (hc : isNameChar c = false) : (name ++ c :: rest).dropWhile isNameChar = c :: rest := by
  rw [List.dropWhile_append_of_pos h, List.dropWhile_cons_of_neg (by simp [hc])]

/-- A value is read up to its last quote. -/
theorem readValue_escape (value rest : List Char) :
    readValue (value.flatMap escape ++ '"' :: rest) = some (value, rest) := by
  induction value with
  | nil => rfl
  | cons c value ih =>
    rw [List.flatMap_cons, List.append_assoc, escape]
    split_ifs with hslash hquote hnewline
    · subst hslash
      simp [readValue, ih]
    · subst hquote
      simp [readValue, ih]
    · subst hnewline
      simp [readValue, ih]
    · rw [List.singleton_append, readValue]
      · rw [ih]
        rfl
      all_goals simp [hslash, hquote]

theorem readLabel_text {label : String × String} (h : IsName label.1) (rest : List Char) :
    readLabel (Sample.labelText label ++ rest) = some (label, rest) := by
  have htext : Sample.labelText label ++ rest =
      label.1.toList ++ '=' :: ('"' :: (label.2.toList.flatMap escape ++ '"' :: rest)) := by
    simp [Sample.labelText]
  rw [htext, readLabel, dropWhile_name h (by decide), takeWhile_name h (by decide)]
  simp [readValue_escape]

/-- Labels are read up to the closing brace. -/
theorem readLabels_text {label : String × String} {labels : List (String × String)}
    (h : ∀ l ∈ label :: labels, IsName l.1) {n : Nat} (hn : labels.length < n)
    (rest : List Char) :
    readLabels n (Sample.labelText label ++
      (labels.flatMap (fun l => ',' :: Sample.labelText l) ++ '}' :: rest)) =
        some (label :: labels, rest) := by
  induction labels generalizing label n with
  | nil =>
    obtain ⟨n, rfl⟩ := Nat.exists_eq_add_of_lt hn
    rw [readLabels, readLabel_text (h label List.mem_cons_self)]
    rfl
  | cons next labels ih =>
    cases n with
    | zero => exact absurd hn (Nat.not_lt_zero _)
    | succ n =>
      have hrest := ih (fun l hl => h l (List.mem_cons_of_mem label hl))
        (Nat.lt_of_succ_lt_succ hn)
      rw [readLabels, readLabel_text (h label List.mem_cons_self)]
      simp only [List.flatMap_cons, List.cons_append, List.append_assoc, hrest, Option.map_some]

theorem readSampleValue_text {sample : Sample} (h : sample.Printable) :
    readSampleValue sample.name sample.labels (' ' :: sample.value.toList) = some sample := by
  have hspace : ' ' ∉ sample.value.toList := fun hmem => (h.value ' ' hmem).1 rfl
  rw [readSampleValue, if_neg hspace, String.ofList_toList]

theorem length_le_labels (labels : List (String × String)) :
    labels.length ≤ (labels.flatMap fun l => ',' :: Sample.labelText l).length := by
  induction labels with
  | nil => exact Nat.le_refl _
  | cons label labels ih =>
    simp only [List.flatMap_cons, List.length_append, List.length_cons]
    omega

/-- A sample is read from its line. -/
theorem readSample_line {sample : Sample} (h : sample.Printable) :
    readSample sample.line = some sample := by
  cases hlabels : sample.labels with
  | nil =>
    have hline : sample.line = sample.name.toList ++ ' ' :: sample.value.toList := by
      simp [Sample.line, hlabels, Sample.labelsText]
    rw [hline, readSample, dropWhile_name h.name (by decide), takeWhile_name h.name (by decide)]
    have hvalue := readSampleValue_text h
    rw [hlabels] at hvalue
    simpa using hvalue
  | cons label labels =>
    have hline : sample.line = sample.name.toList ++ '{' :: (Sample.labelText label ++
        (labels.flatMap (fun l => ',' :: Sample.labelText l) ++
          '}' :: ' ' :: sample.value.toList)) := by
      simp [Sample.line, hlabels, Sample.labelsText]
    have hnames : ∀ l ∈ label :: labels, IsName l.1 := hlabels ▸ h.labels
    have hlength : labels.length < sample.line.length := by
      have := length_le_labels labels
      rw [hline]
      simp only [List.length_append, List.length_cons]
      omega
    have hread := readLabels_text hnames hlength (' ' :: sample.value.toList)
    have hvalue := readSampleValue_text h
    rw [hlabels] at hvalue
    rw [readSample]
    have hdrop := congrArg (List.dropWhile isNameChar) hline
    have htake := congrArg (List.takeWhile isNameChar) hline
    rw [dropWhile_name h.name (by decide)] at hdrop
    rw [takeWhile_name h.name (by decide)] at htake
    simp only [hdrop, htake, hread, Option.bind_some, String.ofList_toList, hvalue]

/-! ## The lines -/

/-- The lines of a page, as what they say. -/
def Family.content (family : Family) : List Line :=
  .type family.name family.kind :: family.samples.map .sample

/-- The text of a line. -/
def Line.text : Line → List Char
  | .type name kind => Family.line ⟨name, kind, []⟩
  | .sample s => s.line

def Line.Printable : Line → Prop
  | .type name kind => IsName name ∧ '\n' ∉ kind.toList
  | .sample s => s.Printable

theorem Family.lines_eq (family : Family) : family.lines = family.content.map Line.text := by
  simp only [Family.lines, Family.content, List.map_cons, List.map_map]
  rfl

theorem Family.Printable.content {family : Family} (h : family.Printable) :
    ∀ line ∈ family.content, line.Printable := by
  intro line hline
  rcases List.mem_cons.mp hline with rfl | hline
  · exact ⟨h.name, h.kind⟩
  · obtain ⟨sample, hsample, rfl⟩ := List.mem_map.mp hline
    exact h.samples sample hsample

theorem newline_not_name {name : String} (h : IsName name) : '\n' ∉ name.toList :=
  fun hmem => absurd (h '\n' hmem) (by decide)

theorem newline_not_escape (value : List Char) : '\n' ∉ value.flatMap escape := by
  intro hmem
  obtain ⟨c, _, hc⟩ := List.mem_flatMap.mp hmem
  rw [escape] at hc
  split_ifs at hc with hslash hquote hnewline
  · simp at hc
  · simp at hc
  · simp at hc
  · exact hnewline (List.mem_singleton.mp hc).symm

theorem newline_not_labelText {label : String × String} (h : IsName label.1) :
    '\n' ∉ Sample.labelText label := by
  simp [Sample.labelText, newline_not_name h, newline_not_escape label.2.toList]

/-- No text breaks its line. -/
theorem Line.Printable.newline {line : Line} (h : line.Printable) : '\n' ∉ line.text := by
  cases line with
  | type name kind =>
    have hprefix : '\n' ∉ typePrefix := by decide
    simp [Line.text, Family.line, hprefix, newline_not_name h.1, h.2]
  | sample sample =>
    have hvalue : '\n' ∉ sample.value.toList := fun hmem => (h.value '\n' hmem).2 rfl
    have hlabels : '\n' ∉ Sample.labelsText sample.labels := by
      have hall : ∀ label ∈ sample.labels, '\n' ∉ Sample.labelText label :=
        fun label hlabel => newline_not_labelText (h.labels label hlabel)
      generalize sample.labels = labels at hall
      cases labels with
      | nil => simp [Sample.labelsText]
      | cons label labels =>
        have hrest : '\n' ∉ labels.flatMap fun l => ',' :: Sample.labelText l := by
          intro hmem
          obtain ⟨l, hl, hl'⟩ := List.mem_flatMap.mp hmem
          rcases List.mem_cons.mp hl' with hcomma | hl'
          · exact absurd hcomma (by decide)
          · exact hall l (List.mem_cons_of_mem label hl) hl'
        simp [Sample.labelsText, hall label List.mem_cons_self, hrest]
    simp [Line.text, Sample.line, newline_not_name h.name, hlabels, hvalue]

/-- A line is read from its text. -/
theorem readLine_text {line : Line} (h : line.Printable) : readLine line.text = some line := by
  cases line with
  | type name kind =>
    have htext : (Line.type name kind).text =
        typePrefix ++ (name.toList ++ ' ' :: kind.toList) := by
      simp [Line.text, Family.line]
    have hdrop : (Line.type name kind).text.drop 7 = name.toList ++ ' ' :: kind.toList := by
      rw [htext]
      exact List.drop_left' rfl
    have htake : (Line.type name kind).text.take 7 = typePrefix := by
      rw [htext]
      exact List.take_left' rfl
    rw [readLine, if_pos htake, hdrop, dropWhile_name h.1 (by decide),
      takeWhile_name h.1 (by decide)]
    simp
  | sample sample =>
    have htake : sample.line.take 7 ≠ typePrefix := by
      intro htake
      -- The line would begin with a number sign, which is in no name.
      have hhead : sample.line.head? = some '#' := by
        have hfirst := congrArg List.head? htake
        rw [List.head?_take] at hfirst
        simpa [typePrefix] using hfirst
      cases hname : sample.name.toList with
      | nil =>
        cases hlabels : sample.labels <;>
          simp [Sample.line, Sample.labelsText, hname, hlabels] at hhead
      | cons c rest =>
        obtain rfl : c = '#' := by simpa [Sample.line, hname] using hhead
        exact absurd (h.name '#' (by rw [hname]; exact List.mem_cons_self)) (by decide)
    rw [readLine, Line.text, if_neg htake, readSample_line h]
    rfl

theorem mapM_readLine {lines : List Line} (h : ∀ line ∈ lines, line.Printable) :
    (lines.map Line.text).mapM readLine = some lines := by
  induction lines with
  | nil => rfl
  | cons line lines ih =>
    rw [List.map_cons, List.mapM_cons, readLine_text (h line List.mem_cons_self),
      ih fun l hl => h l (List.mem_cons_of_mem line hl)]
    rfl

theorem group_samples (samples : List Sample) (lines : List Line) :
    group (samples.map .sample ++ lines) = (samples ++ (group lines).1, (group lines).2) := by
  induction samples with
  | nil => rfl
  | cons sample samples ih => simp [group, ih]

/-- The lines of families are grouped to the families. -/
theorem group_content (page : List Family) : group (page.flatMap Family.content) = ([], page) := by
  induction page with
  | nil => rfl
  | cons family page ih =>
    simp [Family.content, group, group_samples, ih]

/-- Lines that end and are not broken. -/
theorem splitOn_lines {lines : List (List Char)} (h : ∀ line ∈ lines, '\n' ∉ line) :
    (lines.flatMap fun line => line ++ ['\n']).splitOn '\n' = lines ++ [[]] := by
  induction lines with
  | nil => rfl
  | cons line lines ih =>
    rw [List.flatMap_cons, List.append_assoc, List.singleton_append,
      List.splitOn_append_cons_self, List.splitOn_eq_singleton (h line List.mem_cons_self),
      ih fun l hl => h l (List.mem_cons_of_mem line hl)]
    rfl

/-- A scraper reads back the page that was printed. -/
theorem parse_print {page : List Family} (h : ∀ family ∈ page, family.Printable) :
    parse (print page) = some page := by
  have hcontent : ∀ line ∈ page.flatMap Family.content, line.Printable := by
    intro line hline
    obtain ⟨family, hfamily, hline⟩ := List.mem_flatMap.mp hline
    exact (h family hfamily).content line hline
  have hlines : page.flatMap Family.lines = (page.flatMap Family.content).map Line.text := by
    rw [List.map_flatMap]
    exact congrArg (page.flatMap ·) (funext Family.lines_eq)
  have hbreak : ∀ line ∈ page.flatMap Family.lines, '\n' ∉ line := by
    rw [hlines]
    intro text htext
    obtain ⟨line, hline, rfl⟩ := List.mem_map.mp htext
    exact (hcontent line hline).newline
  rw [parse, print, String.toList_ofList, splitOn_lines hbreak]
  simp [hlines, mapM_readLine hcontent, group_content]

/-! ## The rules of a page -/

/-- The series of a sample. -/
def Sample.series (sample : Sample) : String × List (String × String) :=
  (sample.name, sample.labels)

/-- A sample has the name of its family; in a histogram, with one of three endings. -/
def Family.Allows (family : Family) (sample : Sample) : Prop :=
  if family.kind = "histogram" then
    sample.name = family.name ++ "_bucket" ∨ sample.name = family.name ++ "_sum" ∨
      sample.name = family.name ++ "_count"
  else sample.name = family.name

/-- The rules that a page must keep: one family for a name, one sample for a series, and no
sample in a family of another name. -/
structure WellFormed (page : List Family) : Prop where
  families : (page.map Family.name).Nodup
  series : ((page.flatMap Family.samples).map Sample.series).Nodup
  samples : ∀ family ∈ page, ∀ sample ∈ family.samples, family.Allows sample

/-- The value of a series. -/
def value (page : List Family) (name : String) (labels : List (String × String)) :
    Option String :=
  ((page.flatMap Family.samples).find? fun sample => sample.series = (name, labels)).map
    Sample.value

/-- A page has the value of each of its samples, if it has one sample for a series. -/
theorem value_of_mem {page : List Family} (h : WellFormed page) {sample : Sample}
    (hsample : sample ∈ page.flatMap Family.samples) :
    value page sample.name sample.labels = some sample.value := by
  have hnodup := h.series
  rw [value]
  generalize page.flatMap Family.samples = samples at hsample hnodup
  induction samples with
  | nil => exact absurd hsample List.not_mem_nil
  | cons first samples ih =>
    obtain ⟨hfirst, hrest⟩ := List.nodup_cons.mp hnodup
    rcases List.mem_cons.mp hsample with rfl | hsample
    · simp [Sample.series]
    · have hne : first.series ≠ (sample.name, sample.labels) := by
        intro heq
        exact hfirst (List.mem_map.mpr ⟨sample, hsample, heq.symm⟩)
      rw [List.find?_cons_of_neg (by simpa using hne)]
      exact ih hsample hrest

end Exposition
