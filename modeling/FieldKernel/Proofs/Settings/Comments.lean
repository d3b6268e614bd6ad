import Mathlib.Data.List.Basic
import FieldKernel.Settings.Reader
import FieldKernel.Proofs.Outcome

-- A comment behind a line of settings changes nothing, unless the line is a heading.
namespace FieldKernel

namespace Text

variable {p : Char → Bool} {cs ds tail line before after : List Char} {c : Char}

theorem trimEnd_split (p : Char → Bool) (cs : List Char) :
    ∃ tail, cs = trimEnd p cs ++ tail ∧ ∀ c ∈ tail, p c = true := by
  refine ⟨(cs.reverse.takeWhile p).reverse, ?_, fun c member => ?_⟩
  · rw [trimEnd, ← List.reverse_append, List.takeWhile_append_dropWhile, List.reverse_reverse]
  · exact List.all_eq_true.mp List.all_takeWhile c (List.mem_reverse.mp member)

theorem trimEnd_append (all : ∀ c ∈ tail, p c = true) : trimEnd p (cs ++ tail) = trimEnd p cs := by
  have turned : ∀ c ∈ tail.reverse, p c = true := fun c member => all c (List.mem_reverse.mp member)
  rw [trimEnd, List.reverse_append, List.dropWhile_append_of_pos turned, trimEnd]

theorem trimEnd_cons (cs ds : List Char) (stays : p c = false) :
    trimEnd p (cs ++ c :: ds) = cs ++ c :: trimEnd p ds := by
  have kept : (c :: cs.reverse).dropWhile p = c :: cs.reverse := by rw [List.dropWhile_cons, if_neg (by simp [stays])]
  rw [trimEnd, List.reverse_append, List.reverse_cons, List.append_assoc, List.singleton_append,
    List.dropWhile_append, kept, trimEnd]
  split
  · next empty => simp [List.isEmpty_iff.mp empty]
  · simp

theorem trimWith_cons (stays : p c = false) : trimWith p (c :: ds) = c :: trimEnd p ds := by
  rw [trimWith, List.dropWhile_cons, if_neg (by simp [stays])]
  exact trimEnd_cons [] ds stays

theorem trim_append (blanks : ∀ c ∈ tail, isBlank c = true) : trim (cs ++ tail) = trim cs := by
  rw [trim, trimWith, List.dropWhile_append]
  split
  · next empty =>
    have left : tail.dropWhile isBlank = [] := by
      rw [← List.append_nil tail, List.dropWhile_append_of_pos blanks, List.dropWhile_nil]
    rw [left, trim, trimWith, List.isEmpty_iff.mp empty]
  · exact trimEnd_append blanks

theorem trim_trimEnd (blanks : ∀ c, p c = true → isBlank c = true) : trim (trimEnd p cs) = trim cs := by
  obtain ⟨tail, split, all⟩ := trimEnd_split p cs
  conv_rhs => rw [split]
  exact (trim_append fun c member => blanks c (all c member)).symm

theorem trim_behind (cs ds : List Char) {space : List Char} (blanks : ∀ d ∈ space, isBlank d = true)
    (visible : isBlank c = false) :
    ∃ gap, (∀ d ∈ gap, isBlank d = true) ∧ (trim cs = [] → gap = []) ∧
      trim (cs ++ (space ++ c :: ds)) = trim cs ++ (gap ++ c :: trimEnd isBlank ds) := by
  have first := List.head?_dropWhile_not isBlank cs
  have kept : (c :: ds).dropWhile isBlank = c :: ds := by rw [List.dropWhile_cons, if_neg (by simp [visible])]
  have opened : (cs ++ (space ++ c :: ds)).dropWhile isBlank =
      if (cs.dropWhile isBlank).isEmpty then c :: ds else cs.dropWhile isBlank ++ (space ++ c :: ds) := by
    rw [List.dropWhile_append, List.dropWhile_append_of_pos blanks, kept]
  rw [trim, trim, trimWith, trimWith, opened]
  cases left : cs.dropWhile isBlank with
  | nil => exact ⟨[], nofun, fun _ => rfl, trimEnd_cons [] ds visible⟩
  | cons d rest =>
    obtain ⟨tail, split, all⟩ := trimEnd_split isBlank (d :: rest)
    rw [left] at first
    refine ⟨tail ++ space, List.forall_mem_append.mpr ⟨all, blanks⟩, fun none_ => ?_, ?_⟩
    · rw [none_, List.nil_append] at split
      have blank := all d (split ▸ List.mem_cons_self)
      exact absurd blank (by simpa using first)
    · rw [List.isEmpty_cons, if_neg Bool.false_ne_true, ← List.append_assoc, trimEnd_cons _ _ visible]
      conv_lhs => rw [split]
      simp only [List.append_assoc]

theorem lines_fed (fed : before = [] ∨ before.getLast? = some '\n') (cs : List Char) :
    lines (before ++ cs) = lines before ++ lines cs := by
  induction before with
  | nil => rfl
  | cons c before ih =>
    by_cases feed : c = '\n'
    · have others : before = [] ∨ before.getLast? = some '\n' := by
        cases before with
        | nil => exact .inl rfl
        | cons d before => simpa using fed
      rw [List.cons_append, lines, lines, if_pos feed, if_pos feed, ih others, List.cons_append]
    · cases before with
      | nil => simp [feed] at fed
      | cons d before =>
        have last : (d :: before).getLast? = some '\n' := by simpa using fed
        have more := ih (.inr last)
        have some_ : ∃ first rest, lines (d :: before) = first :: rest := by
          rw [lines]
          split
          · exact ⟨_, _, rfl⟩
          · split <;> exact ⟨_, _, rfl⟩
        obtain ⟨first, rest, shown⟩ := some_
        rw [List.cons_append, lines, lines, if_neg feed, if_neg feed, more, shown]
        rfl

theorem lines_feed (unbroken : '\n' ∉ line) (after : List Char) :
    lines (line ++ '\n' :: after) = (line ++ ['\n']) :: lines after := by
  induction line with
  | nil => rfl
  | cons c line ih =>
    obtain ⟨other, rest⟩ := not_or.mp (mt List.mem_cons.mpr unbroken)
    rw [List.cons_append, lines, if_neg (Ne.symm other), ih rest]
    rfl

theorem lines_last (unbroken : '\n' ∉ line) (some_ : line ≠ []) : lines line = [line] := by
  induction line with
  | nil => exact absurd rfl some_
  | cons c line ih =>
    obtain ⟨other, rest⟩ := not_or.mp (mt List.mem_cons.mpr unbroken)
    rw [lines, if_neg (Ne.symm other)]
    cases line with
    | nil => rfl
    | cons d line => rw [ih rest (List.cons_ne_nil _ _)]

end Text

namespace Settings

variable {settings : Settings} {heading line remark : List Char}

-- One line after another; where they stand in the text matters to messages only.
def advance (state : List Char × Settings) (raw : List Char) : Except Issue (List Char × Settings) :=
  readLine state.1 state.2 (Text.trim raw)

theorem readLines_ok {start : Nat} {lines : List (List Char)} {result : Settings} :
    readLines start heading settings lines = .ok result ↔
      ∃ last, lines.foldlM advance (heading, settings) = .ok (last, result) := by
  have feeds : ∀ c, (c = '\n' || c = '\r') = true → Text.isBlank c = true := by
    intro c feed
    rcases Bool.or_eq_true_iff.mp feed with line | carriage
    · rw [of_decide_eq_true line]
      rfl
    · rw [of_decide_eq_true carriage]
      rfl
  induction lines generalizing start heading settings with
  | nil => simp [readLines, pure, Except.pure]
  | cons raw rest ih =>
    rw [readLines, Text.trim_trimEnd feeds, List.foldlM_cons]
    change _ ↔ ∃ last, (readLine heading settings (Text.trim raw) >>= _) = _
    cases readLine heading settings (Text.trim raw) with
    | error issue => simp [bind, Except.bind]
    | ok state => exact ih

theorem splitOnce_append {c : Char} {cs key value : List Char} (found : Text.splitOnce c cs = some (key, value))
    (more : List Char) : Text.splitOnce c (cs ++ more) = some (key, value ++ more) := by
  induction cs generalizing key with
  | nil => cases found
  | cons d ds ih =>
    rw [Text.splitOnce] at found
    rw [List.cons_append, Text.splitOnce]
    split at found
    · next here =>
      cases found
      rw [if_pos here]
    · next other =>
      obtain ⟨parts, later, same⟩ := Option.map_eq_some_iff.mp found
      cases same
      rw [if_neg other, ih later]
      rfl

theorem value_commented {value gap : List Char} (blanks : ∀ c ∈ gap, Text.isBlank c = true) (remark : List Char) :
    Text.trim ((value ++ (gap ++ '#' :: remark)).takeWhile (· ≠ '#')) =
      Text.trim (value.takeWhile (· ≠ '#')) := by
  have apart : ∀ c ∈ gap, (decide (c ≠ '#')) = true := by
    intro c member
    refine decide_eq_true fun comment => ?_
    have blank := blanks c member
    rw [comment] at blank
    cases blank
  rw [List.takeWhile_append]
  split
  · next all =>
    rw [(List.takeWhile_prefix _).eq_of_length all, List.takeWhile_append_of_pos apart, List.takeWhile_cons,
      if_neg (by decide), List.append_nil]
    exact Text.trim_append blanks
  · rfl

theorem readAssignment_commented {gap : List Char} (blanks : ∀ c ∈ gap, Text.isBlank c = true) (remark : List Char)
    {result : Settings} (accepted : settings.readAssignment line = .ok result) :
    settings.readAssignment (line ++ (gap ++ '#' :: remark)) = .ok result := by
  unfold readAssignment at accepted ⊢
  cases found : Text.splitOnce '=' line with
  | none =>
    rw [found] at accepted
    cases accepted
  | some parts =>
    obtain ⟨key, value⟩ := parts
    rw [found] at accepted
    rw [splitOnce_append found]
    dsimp only at accepted ⊢
    rw [value_commented blanks]
    exact accepted

theorem heading?_commented (line gap : List Char) (unclosed : ']' ∉ remark) :
    heading? (line ++ (gap ++ '#' :: remark)) = none := by
  rw [heading?, if_neg]
  rintro ⟨-, closed⟩
  rw [List.getLast?_append, List.getLast?_append] at closed
  cases last : ('#' :: remark).getLast? with
  | none => simp at last
  | some c =>
    rw [last] at closed
    cases closed
    rcases List.mem_cons.mp (List.mem_of_getLast? last) with comment | inside
    · cases comment
    · exact unclosed inside

theorem readLine_comment (rest : List Char) : readLine heading settings ('#' :: rest) = .ok (heading, settings) := by
  simp [readLine]

theorem readLine_heading {c : Char} {rest name : List Char} (code : c ≠ '#')
    (named : heading? (c :: rest) = some name) :
    readLine heading settings (c :: rest) = .ok (name, settings) := by
  simp [readLine, named, code]

theorem readLine_plain {c : Char} {rest : List Char} (code : c ≠ '#') (plain : heading? (c :: rest) = none) :
    readLine heading settings (c :: rest) =
      if heading = "runtime".toList then (settings.readAssignment (c :: rest)).map (heading, ·)
      else .ok (heading, settings) := by
  simp only [readLine, plain, List.isEmpty_cons, List.head?_cons, Option.some.injEq, code, decide_false, Bool.or_self,
    Bool.false_eq_true, if_false]
  rfl

theorem readLine_commented {gap : List Char} (blanks : ∀ c ∈ gap, Text.isBlank c = true) (close : line = [] → gap = [])
    (unclosed : ']' ∉ remark) (plain : heading? line = none) {result : List Char × Settings}
    (accepted : readLine heading settings line = .ok result) :
    readLine heading settings (line ++ (gap ++ '#' :: remark)) = .ok result := by
  cases line with
  | nil =>
    rw [close rfl, List.nil_append, List.nil_append, readLine_comment]
    exact accepted
  | cons c rest =>
    by_cases comment : c = '#'
    · subst comment
      rw [List.cons_append, readLine_comment]
      rwa [readLine_comment] at accepted
    · have other := heading?_commented (c :: rest) gap unclosed
      rw [readLine_plain comment plain] at accepted
      rw [List.cons_append] at other ⊢
      rw [readLine_plain comment other]
      split
      · next runtime =>
        rw [if_pos runtime] at accepted
        obtain ⟨assigned, set_, same⟩ := Except.map_ok.mp accepted
        have commented := readAssignment_commented blanks remark set_
        rw [List.cons_append] at commented
        rw [commented, ← same]
        rfl
      · next elsewhere =>
        rwa [if_neg elsewhere] at accepted

theorem readAssignment_bracket (settings : Settings) (rest : List Char) :
    ∃ issue, settings.readAssignment ('[' :: rest) = .error issue := by
  unfold readAssignment
  cases found : Text.splitOnce '=' ('[' :: rest) with
  | none => exact ⟨_, rfl⟩
  | some parts =>
    obtain ⟨key, value⟩ := parts
    rw [Text.splitOnce, if_neg (by decide)] at found
    obtain ⟨parts, -, same⟩ := Option.map_eq_some_iff.mp found
    cases same
    dsimp only
    rw [Text.trim, Text.trimWith_cons (by decide), unquote, Text.trimWith_cons (by decide)]
    generalize (Text.trimEnd _ (Text.trimEnd _ _)) = key
    have other : ∀ name : String, name.toList.head? ≠ some '[' → String.ofList ('[' :: key) ≠ name := by
      rintro _ headed rfl
      exact headed (by rw [String.toList_ofList, List.head?_cons])
    unfold set
    split
    · next same => exact absurd same (other _ (by decide))
    · next same => exact absurd same (other _ (by decide))
    · next same => exact absurd same (other _ (by decide))
    · next same => exact absurd same (other _ (by decide))
    · next same => exact absurd same (other _ (by decide))
    · exact ⟨_, rfl⟩

theorem heading?_bracket {name : List Char} (named : heading? line = some name) : ∃ rest, line = '[' :: rest := by
  rw [heading?] at named
  split at named
  · next brackets => exact ⟨line.tail, List.eq_cons_of_mem_head? brackets.1⟩
  · cases named

theorem readLine_heading_commented (settings : Settings) (gap : List Char) {name : List Char} (unclosed : ']' ∉ remark)
    (named : heading? line = some name) :
    (heading = "runtime".toList → ∃ issue, readLine heading settings (line ++ (gap ++ '#' :: remark)) = .error issue) ∧
      (heading ≠ "runtime".toList →
        readLine heading settings (line ++ (gap ++ '#' :: remark)) = .ok (heading, settings)) := by
  have other := heading?_commented line gap unclosed
  obtain ⟨rest, rfl⟩ := heading?_bracket named
  rw [List.cons_append] at other ⊢
  rw [readLine_plain (by decide) other]
  refine ⟨fun runtime => ?_, fun elsewhere => if_neg elsewhere⟩
  obtain ⟨issue, refused⟩ := readAssignment_bracket settings (rest ++ (gap ++ '#' :: remark))
  rw [if_pos runtime, refused]
  exact ⟨issue, rfl⟩

def sectionOf (text : String) : List Char :=
  (Text.lines text.toList).foldl (fun heading raw => (heading? (Text.trim raw)).getD heading) []

theorem readLine_section {result : List Char × Settings} (accepted : readLine heading settings line = .ok result) :
    result.1 = (heading? line).getD heading := by
  cases line with
  | nil =>
    cases accepted
    rfl
  | cons c rest =>
    by_cases comment : c = '#'
    · subst comment
      rw [readLine_comment] at accepted
      cases accepted
      rfl
    · cases named : heading? (c :: rest) with
      | some name =>
        rw [readLine_heading comment named] at accepted
        cases accepted
        rfl
      | none =>
        rw [readLine_plain comment named] at accepted
        split at accepted
        · obtain ⟨assigned, -, same⟩ := Except.map_ok.mp accepted
          rw [← same]
          rfl
        · cases accepted
          rfl

theorem foldlM_section {lines : List (List Char)} {state result : List Char × Settings}
    (accepted : lines.foldlM advance state = .ok result) :
    result.1 = lines.foldl (fun heading raw => (heading? (Text.trim raw)).getD heading) state.1 := by
  induction lines generalizing state with
  | nil =>
    cases accepted
    rfl
  | cons raw rest ih =>
    rw [List.foldlM_cons] at accepted
    obtain ⟨next, first, others⟩ := Except.bind_ok.mp accepted
    rw [ih others, readLine_section first, List.foldl_cons]

-- A line of a text, between the lines before it and those after it, with the line break that ends it.
structure LineAt (before line ending after : String) : Prop where
  begins : before = "" ∨ ∃ text, before = text ++ "\n"
  unbroken : '\n' ∉ line.toList
  ends : ending = "\n" ∨ ending = "\r\n" ∨ (ending = "" ∧ after = "")

theorem advance_append {state : List Char × Settings} {raw tail : List Char}
    (blanks : ∀ c ∈ tail, Text.isBlank c = true) : advance state (raw ++ tail) = advance state raw := by
  rw [advance, advance, Text.trim_append blanks]

theorem LineAt.foldlM_eq {before line ending after : String} (placed : LineAt before line ending after)
    (state : List Char × Settings) :
    (Text.lines (line.toList ++ (ending.toList ++ after.toList))).foldlM advance state =
      (advance state line.toList >>= fun next => (Text.lines after.toList).foldlM advance next) := by
  rcases placed.ends with feed | both | ⟨none_, last⟩
  · rw [feed, show "\n".toList = ['\n'] from rfl, List.singleton_append, Text.lines_feed placed.unbroken,
      List.foldlM_cons, advance_append (List.forall_mem_singleton.mpr rfl)]
  · have unbroken : '\n' ∉ line.toList ++ ['\r'] := by simpa using placed.unbroken
    have moved : line.toList ++ ("\r\n".toList ++ after.toList) = (line.toList ++ ['\r']) ++ '\n' :: after.toList := by
      simp
    rw [both, moved, Text.lines_feed unbroken, List.foldlM_cons, advance_append (List.forall_mem_singleton.mpr rfl),
      advance_append (List.forall_mem_singleton.mpr rfl)]
  · rw [none_, last, String.toList_empty, List.append_nil, List.append_nil]
    by_cases empty : line.toList = []
    · rw [empty]
      rfl
    · rw [Text.lines_last placed.unbroken empty, List.foldlM_cons]
      rfl

theorem LineAt.read_ok {before line ending after : String} (placed : LineAt before line ending after)
    {result : Settings} :
    read (before ++ line ++ ending ++ after) = .ok result ↔
      ∃ state next last, (Text.lines before.toList).foldlM advance ([], .default) = .ok state ∧
        advance state line.toList = .ok next ∧ (Text.lines after.toList).foldlM advance next = .ok (last, result) := by
  have fed : before.toList = [] ∨ before.toList.getLast? = some '\n' := by
    rcases placed.begins with rfl | ⟨text, rfl⟩
    · exact .inl rfl
    · exact .inr (by simp)
  rw [read, readLines_ok]
  simp only [String.toList_append, List.append_assoc, Text.lines_fed fed, List.foldlM_append]
  constructor
  · rintro ⟨last, all⟩
    obtain ⟨state, first, rest⟩ := Except.bind_ok.mp all
    rw [placed.foldlM_eq] at rest
    obtain ⟨next, line_, others⟩ := Except.bind_ok.mp rest
    exact ⟨state, next, last, first, line_, others⟩
  · rintro ⟨state, next, last, first, line_, others⟩
    refine ⟨last, Except.bind_ok.mpr ⟨state, first, ?_⟩⟩
    rw [placed.foldlM_eq]
    exact Except.bind_ok.mpr ⟨next, line_, others⟩

theorem LineAt.commented {before line ending after remark : String} (placed : LineAt before line ending after)
    (unbroken : '\n' ∉ remark.toList) : LineAt before (line ++ " #" ++ remark) ending after :=
  ⟨placed.begins, by simpa [placed.unbroken] using unbroken, placed.ends⟩

theorem LineAt.blanked {before line ending after : String} (placed : LineAt before line ending after) :
    LineAt before "" ending after :=
  ⟨placed.begins, by simp, placed.ends⟩

-- A comment behind a line changes no setting, unless the line is a heading. A heading with a comment behind it is
-- refused among the settings, and elsewhere it is passed over, as if the line were blank.
theorem read_commented {before line ending after remark : String} {settings : Settings}
    (placed : LineAt before line ending after) (unbroken : '\n' ∉ remark.toList) (unclosed : ']' ∉ remark.toList)
    (accepted : read (before ++ line ++ ending ++ after) = .ok settings) :
    (heading? (Text.trim line.toList) = none →
      read (before ++ (line ++ " #" ++ remark) ++ ending ++ after) = .ok settings) ∧
    (heading? (Text.trim line.toList) ≠ none →
      (sectionOf before = "runtime".toList →
        ∃ issue, read (before ++ (line ++ " #" ++ remark) ++ ending ++ after) = .error issue) ∧
      (sectionOf before ≠ "runtime".toList → ∀ result,
        read (before ++ (line ++ " #" ++ remark) ++ ending ++ after) = .ok result ↔
          read (before ++ "" ++ ending ++ after) = .ok result)) := by
  obtain ⟨state, next, last, first, line_, others⟩ := placed.read_ok.mp accepted
  have space : ∀ d ∈ [' '], Text.isBlank d = true := List.forall_mem_singleton.mpr rfl
  obtain ⟨gap, blanks, close, behind⟩ := Text.trim_behind line.toList remark.toList space
    (by decide : Text.isBlank '#' = false)
  have shown : (line ++ " #" ++ remark).toList = line.toList ++ ([' '] ++ '#' :: remark.toList) := by simp
  have kept : ']' ∉ Text.trimEnd Text.isBlank remark.toList := by
    obtain ⟨tail, split, -⟩ := Text.trimEnd_split Text.isBlank remark.toList
    exact fun inside => unclosed (split ▸ List.mem_append_left tail inside)
  have opened : state.1 = sectionOf before := foldlM_section first
  refine ⟨fun plain => ?_, fun named => ⟨fun runtime => ?_, fun elsewhere result => ?_⟩⟩
  · refine (placed.commented unbroken).read_ok.mpr ⟨state, next, last, first, ?_, others⟩
    rw [advance, shown, behind]
    exact readLine_commented blanks close kept plain line_
  · obtain ⟨name, named⟩ := Option.ne_none_iff_exists'.mp named
    obtain ⟨issue, refused⟩ := (readLine_heading_commented state.2 gap kept named).1
      (opened.trans runtime)
    cases outcome : read (before ++ (line ++ " #" ++ remark) ++ ending ++ after) with
    | error issue => exact ⟨issue, rfl⟩
    | ok result =>
      obtain ⟨state', next', -, first', line', -⟩ := (placed.commented unbroken).read_ok.mp outcome
      cases first.symm.trans first'
      rw [advance, shown, behind, refused] at line'
      cases line'
  · obtain ⟨name, named⟩ := Option.ne_none_iff_exists'.mp named
    have passed := (readLine_heading_commented state.2 gap kept named).2
      (fun runtime => elsewhere (opened.symm.trans runtime))
    rw [(placed.commented unbroken).read_ok, placed.blanked.read_ok]
    have same : advance state (line ++ " #" ++ remark).toList = advance state "".toList := by
      rw [advance, shown, behind, passed]
      rfl
    constructor
    · rintro ⟨state', next', last', first', line', others'⟩
      cases first.symm.trans first'
      exact ⟨state, next', last', first, same ▸ line', others'⟩
    · rintro ⟨state', next', last', first', line', others'⟩
      cases first.symm.trans first'
      exact ⟨state, next', last', first, same.symm ▸ line', others'⟩

theorem read_commented_setting :
    LineAt "[runtime]\n" "fusion = false" "\r\n" "print_ir = true" ∧ '\n' ∉ " off".toList ∧ ']' ∉ " off".toList ∧
      read ("[runtime]\n" ++ "fusion = false" ++ "\r\n" ++ "print_ir = true") =
        .ok { default with printKernels := true, fusion := false } ∧
      read ("[runtime]\n" ++ ("fusion = false" ++ " #" ++ " off") ++ "\r\n" ++ "print_ir = true") =
        .ok { default with printKernels := true, fusion := false } := by
  have placed : LineAt "[runtime]\n" "fusion = false" "\r\n" "print_ir = true" :=
    ⟨.inr ⟨"[runtime]", by decide⟩, by decide, .inr (.inl rfl)⟩
  have accepted : read ("[runtime]\n" ++ "fusion = false" ++ "\r\n" ++ "print_ir = true") =
      .ok { default with printKernels := true, fusion := false } := by decide +kernel
  exact ⟨placed, by decide, by decide, accepted,
    (read_commented placed (by decide) (by decide) accepted).1 (by decide +kernel)⟩

theorem heading_comment_loses_settings :
    LineAt "" "[runtime]" "\n" "fusion = false\n" ∧ '\n' ∉ " solver".toList ∧ ']' ∉ " solver".toList ∧
      read ("" ++ "[runtime]" ++ "\n" ++ "fusion = false\n") = .ok { default with fusion := false } ∧
      read ("" ++ ("[runtime]" ++ " #" ++ " solver") ++ "\n" ++ "fusion = false\n") = .ok default :=
  ⟨⟨.inl rfl, by decide, .inl rfl⟩, by decide, by decide, by decide +kernel, by decide +kernel⟩

end Settings

end FieldKernel
