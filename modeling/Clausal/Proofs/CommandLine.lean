import Clausal.CommandLine
import Clausal.Proofs.Dimacs.Embedding
import Clausal.Proofs.Search.Oracle
import Mathlib

/-!
# The answers of the command line program

Every line printed before the answer is a comment or a line of the rendered instance. So the answer
can be told from the lines that begin with `s` and `v`, and a run that renders its instance prints a
text that is read as the same instance. Without a time limit there always is an answer, and it is
right because the search is.
-/

namespace Clausal

/-- Some valuation satisfies every clause. -/
def Cnf.Satisfiable (cnf : Cnf) : Prop := ∃ v, cnf.satisfiedBy v = true

namespace CommandLine

open Dimacs

/-! ## Texts on one line -/

theorem exists_of_mem_toDigits {b n : Nat} {c : Char} (hb : 1 < b) (hc : c ∈ Nat.toDigits b n) :
    ∃ d < b, c = Nat.digitChar d := by
  induction n using Nat.strongRecOn with
  | ind n ih =>
    rw [Nat.toDigits_eq_if hb] at hc
    split at hc
    case isTrue hlt => exact ⟨n, hlt, List.mem_singleton.mp hc⟩
    case isFalse hle =>
      rcases List.mem_append.mp hc with hc | hc
      · exact ih (n / b) (Nat.div_lt_self (by omega) hb) hc
      · exact ⟨n % b, Nat.mod_lt n (by omega), List.mem_singleton.mp hc⟩

/-- The digits of a base up to 16 show. -/
theorem isVisible_of_mem_toDigits {b n : Nat} {c : Char} (hb : 1 < b) (hb' : b ≤ 16)
    (hc : c ∈ Nat.toDigits b n) : Text.isVisible c = true := by
  have hascii : ∀ d < 16, 0x20 ≤ (Nat.digitChar d).toNat ∧ (Nat.digitChar d).toNat ≤ 0x7E := by
    decide
  obtain ⟨d, hd, rfl⟩ := exists_of_mem_toDigits hb hc
  exact Text.isVisible_of_ascii (hascii d (by omega))

theorem newline_notMem_of_isVisible {cs : List Char} (h : ∀ c ∈ cs, Text.isVisible c = true) :
    '\n' ∉ cs := by
  intro hmem
  have hrange := (Text.isVisible_iff_of_ascii (by decide)).mp (h '\n' hmem)
  exact absurd hrange.1 (by decide)

theorem newline_notMem_toDigits {b : Nat} (hb : 1 < b) (hb' : b ≤ 16) (n : Nat) :
    '\n' ∉ Nat.toDigits b n :=
  newline_notMem_of_isVisible fun _ hc => isVisible_of_mem_toDigits hb hb' hc

theorem newline_notMem_append {s t : String} (hs : '\n' ∉ s.toList) (ht : '\n' ∉ t.toList) :
    '\n' ∉ (s ++ t).toList := by
  rw [String.toList_append, List.mem_append, not_or]
  exact ⟨hs, ht⟩

theorem newline_notMem_toString (n : Nat) : '\n' ∉ (toString n).toList := by
  rw [Nat.toString_eq_repr, Nat.toList_repr]
  exact newline_notMem_toDigits (by decide) (by decide) n

theorem newline_notMem_positionalChars (c : Nat) (place : Int) :
    '\n' ∉ Binary64.positionalChars c place := by
  have hdigits := newline_notMem_toDigits (b := 10) (by decide) (by decide) c
  have htake : ∀ k, '\n' ∉ (Nat.toDigits 10 c).take k := fun k h => hdigits (List.mem_of_mem_take h)
  have hdrop : ∀ k, '\n' ∉ (Nat.toDigits 10 c).drop k := fun k h => hdigits (List.mem_of_mem_drop h)
  unfold Binary64.positionalChars
  simp only
  split_ifs <;> simp [hdigits, htake, hdrop]

theorem newline_notMem_chars (x : Binary64) : '\n' ∉ x.chars := by
  have hpositional := newline_notMem_positionalChars x.shortest.1 x.shortest.2
  unfold Binary64.chars
  simp only
  split_ifs <;> simp [hpositional]

theorem isVisible_of_forall_ascii {cs : List Char}
    (h : ∀ c ∈ cs, 0x20 ≤ c.toNat ∧ c.toNat ≤ 0x7E) : ∀ c ∈ cs, Text.isVisible c = true :=
  fun c hc => Text.isVisible_of_ascii (h c hc)

/-- What stands for a character between the quotes shows. -/
theorem isVisible_of_mem_quotedChar (c : Char) :
    ∀ d ∈ Text.quotedChar c, Text.isVisible d = true := by
  unfold Text.quotedChar
  split_ifs with htab hnewline hreturn hnull hquote hvisible
  · exact isVisible_of_forall_ascii (by simp)
  · exact isVisible_of_forall_ascii (by simp)
  · exact isVisible_of_forall_ascii (by simp)
  · exact isVisible_of_forall_ascii (by simp)
  · simp only [Bool.or_eq_true, decide_eq_true_eq, or_assoc] at hquote
    rcases hquote with rfl | rfl | rfl <;> exact isVisible_of_forall_ascii (by simp)
  · exact List.forall_mem_singleton.mpr hvisible
  · show ∀ d ∈ ['\\', 'u', '\x7b'] ++ (Nat.toDigits 16 c.toNat ++ ['\x7d']), Text.isVisible d = true
    rw [List.forall_mem_append, List.forall_mem_append]
    refine ⟨isVisible_of_forall_ascii (by simp), fun d hd => ?_,
      isVisible_of_forall_ascii (by simp)⟩
    exact isVisible_of_mem_toDigits (by decide) (by decide) hd

/-- A quoted text shows all of its characters. -/
theorem isVisible_of_mem_quoted {cs : List Char} :
    ∀ c ∈ Text.quoted cs, Text.isVisible c = true := by
  have hquote : Text.isVisible '"' = true := Text.isVisible_of_ascii (by decide)
  rw [Text.quoted, List.cons_append, List.forall_mem_cons, List.forall_mem_append]
  refine ⟨hquote, fun d hd => ?_, List.forall_mem_singleton.mpr hquote⟩
  obtain ⟨c, -, hd⟩ := List.mem_flatMap.mp hd
  exact isVisible_of_mem_quotedChar c d hd

theorem newline_notMem_quoted (cs : List Char) : '\n' ∉ Text.quoted cs :=
  newline_notMem_of_isVisible isVisible_of_mem_quoted

/-! ## Comments -/

/-- A comment on one line. -/
structure IsComment (line : OutputLine) : Prop where
  head? : line.head? = some 'c'
  newline_notMem : '\n' ∉ line

theorem isComment_comment {text : String} (h : '\n' ∉ text.toList) : IsComment (comment text) where
  head? := rfl
  newline_notMem := by simp [comment, h]

namespace IsComment

variable {line : OutputLine}

theorem append (h : IsComment line) {cs : List Char} (hcs : '\n' ∉ cs) :
    IsComment (line ++ cs) where
  head? := by
    rw [List.head?_append, h.head?]
    rfl
  newline_notMem hmem := (List.mem_append.mp hmem).elim h.newline_notMem hcs

theorem isIdle (h : IsComment line) : IsIdle (line ++ ['\n']) := by
  obtain ⟨rest, rfl⟩ := List.head?_eq_some_iff.mp h.head?
  exact isIdle_of_leading? rfl

end IsComment

/-! ## Configuration -/

/-- A probability that is given but is not between 0 and 1. A NaN is not. -/
def OutOfBounds (x? : Option Binary64) : Prop :=
  ∃ x, x? = some x ∧ ¬ (Binary64.zero ≤ x ∧ x ≤ Binary64.one)

/-- What comes of setting a probability: nothing but comments, and it is refused exactly if it is
out of bounds. -/
inductive IsSet (x? : Option Binary64) :
    Except OutputLine (Setting Binary64 × List OutputLine) → Prop
  | set {setting : Setting Binary64} {lines : List OutputLine} (hin : ¬ OutOfBounds x?)
      (hlines : ∀ line ∈ lines, IsComment line) : IsSet x? (.ok (setting, lines))
  | refused {line : OutputLine} (hout : OutOfBounds x?) (hline : IsComment line) :
      IsSet x? (.error line)

theorem isSet_setProbability (setting : Setting Binary64) (hname : '\n' ∉ setting.name.toList)
    (hleast : setting.least = .zero) (hmost : setting.most = .one) (x? : Option Binary64) :
    IsSet x? (setProbability setting x?) := by
  cases x? with
  | none =>
    refine .set ?_ (List.forall_mem_nil _)
    rintro ⟨x, hx, -⟩
    cases hx
  | some x =>
    have hcomment := isComment_comment hname
    rw [setProbability]
    by_cases hin : Binary64.zero ≤ x ∧ x ≤ Binary64.one
    · have hset : setting.set x = .ok { setting with value := x } := by
        rw [Setting.set, hleast, hmost, if_pos hin]
      rw [hset]
      refine .set ?_ (List.forall_mem_singleton.mpr ?_)
      · rintro ⟨y, hy, hout⟩
        cases hy
        exact hout hin
      · exact (hcomment.append (by decide)).append (newline_notMem_chars x)
    · have hset : setting.set x = .error x := by
        rw [Setting.set, hleast, hmost, if_neg hin]
      rw [hset]
      refine .refused ⟨x, rfl, hin⟩ ?_
      exact (((hcomment.append (by decide)).append (newline_notMem_chars _)).append
        (by decide)).append (newline_notMem_chars _)

/-- What comes of the options: nothing but comments, and a configuration with the time limit asked
for, unless a probability is out of bounds. -/
inductive IsConfigured (o : Options) : List OutputLine × Option Config → Prop
  | made {lines : List OutputLine} {config : Config} (hlines : ∀ line ∈ lines, IsComment line)
      (hin : ¬ (OutOfBounds o.polarityBias? ∨ OutOfBounds o.decisionBias?))
      (hlimit : config.timeLimit.value = Duration.of (o.timeLimit?.getD 0) 0) :
      IsConfigured o (lines, some config)
  | refused {lines : List OutputLine} (hlines : ∀ line ∈ lines, IsComment line)
      (hout : OutOfBounds o.polarityBias? ∨ OutOfBounds o.decisionBias?) :
      IsConfigured o (lines, none)

theorem isComment_timeLimit (n : Nat) : IsComment (comment s!"time_limit set to: {n}s") :=
  isComment_comment (newline_notMem_append
    (newline_notMem_append (by decide) (newline_notMem_toString n)) (by decide))

theorem isComment_seed (n : Nat) : IsComment (comment s!"seed set to: {n}") :=
  isComment_comment (newline_notMem_append (by decide) (newline_notMem_toString n))

theorem isConfigured_configure (o : Options) : IsConfigured o (configure o) := by
  have hpolarity := isSet_setProbability Config.default.polarityBias (by decide) rfl rfl
    o.polarityBias?
  have hdecision := isSet_setProbability Config.default.decisionBias (by decide) rfl rfl
    o.decisionBias?
  have htime := List.forall_mem_map.mpr fun n (_ : n ∈ o.timeLimit?.toList) => isComment_timeLimit n
  have hseed := List.forall_mem_map.mpr fun n (_ : n ∈ o.seed?.toList) => isComment_seed n
  have hphase : ∀ line ∈ if o.noPhaseSaving then [comment "phase_saving disabled"] else [],
      IsComment line := by
    split
    · exact List.forall_mem_singleton.mpr (isComment_comment (by decide))
    · exact List.forall_mem_nil _
  unfold configure
  simp only
  generalize setProbability Config.default.polarityBias o.polarityBias? = r at hpolarity ⊢
  generalize setProbability Config.default.decisionBias o.decisionBias? = r' at hdecision ⊢
  cases hpolarity with
  | refused hout hline =>
    refine .refused ?_ (.inl hout)
    simp only [List.forall_mem_append, List.forall_mem_singleton]
    exact ⟨⟨htime, hseed⟩, hline⟩
  | set hin hlean =>
    cases hdecision with
    | refused hout hline =>
      refine .refused ?_ (.inr hout)
      simp only [List.forall_mem_append, List.forall_mem_singleton]
      exact ⟨⟨⟨htime, hseed⟩, hlean⟩, hline⟩
    | set hin' hbias =>
      refine .made ?_ (not_or.mpr ⟨hin, hin'⟩) ?_
      · simp only [List.forall_mem_append]
        exact ⟨⟨⟨⟨htime, hseed⟩, hlean⟩, hbias⟩, hphase⟩
      · cases o.timeLimit? <;> rfl

/-! ## The part before the answer -/

/-- No instance is solved: a probability is out of bounds, or the file cannot be opened or read. -/
def Refused (o : Options) (content : Except String Source) : Prop :=
  (OutOfBounds o.polarityBias? ∨ OutOfBounds o.decisionBias?) ∨
    (∃ reason, content = .error reason) ∨ ∃ source e, content = .ok source ∧ read source = .error e

/-- The lines printed before the answer, of which the first are comments. -/
def preliminaries (o : Options) (cnf : Cnf) (comments : List OutputLine) : List OutputLine :=
  comments ++ if o.dimacs then renderLines cnf else []

/-- What comes of the options and the file: a run that is over, or the instance read. -/
inductive IsStarted (o : Options) (content : Except String Source) : Start → Prop
  | finished {lines : List OutputLine} (hrefused : Refused o content)
      (hlines : ∀ line ∈ lines, line.head? = some 'c') :
      IsStarted o content (.finished ⟨lines, 1⟩)
  | ready {comments : List OutputLine} {config : Config} {source : Source} {cnf : Cnf}
      (hrefused : ¬ Refused o content) (hcontent : content = .ok source)
      (hread : read source = .ok cnf) (hcomments : ∀ line ∈ comments, IsComment line)
      (hlimit : config.timeLimit.value = Duration.of (o.timeLimit?.getD 0) 0) :
      IsStarted o content (.ready (preliminaries o cnf comments) config cnf)

theorem not_refused {o : Options} {source : Source} {cnf : Cnf}
    (hin : ¬ (OutOfBounds o.polarityBias? ∨ OutOfBounds o.decisionBias?))
    (hread : read source = .ok cnf) : ¬ Refused o (.ok source) := by
  rintro (hout | ⟨reason, hreason⟩ | ⟨source', e, hsource, he⟩)
  · exact hin hout
  · cases hreason
  · cases hsource
    rw [hread] at he
    cases he

theorem isComment_reading (file : String) :
    IsComment (comment "Reading DIMACS file from " ++ Text.quoted file.toList) :=
  (isComment_comment (by decide)).append (newline_notMem_quoted _)

theorem isComment_parsed (cnf : Cnf) :
    IsComment (comment s!"Parsed {cnf.clauseCount} clauses over {cnf.atomCount} atoms") := by
  refine isComment_comment (newline_notMem_append (newline_notMem_append
    (newline_notMem_append (newline_notMem_append ?_ ?_) ?_) ?_) ?_)
  · decide
  · exact newline_notMem_toString _
  · decide
  · exact newline_notMem_toString _
  · decide

theorem isStarted_start (file : String) (o : Options) (content : Except String Source) :
    IsStarted o content (start file o content) := by
  have hconfigured := isConfigured_configure o
  unfold start
  generalize configure o = r at hconfigured ⊢
  cases hconfigured with
  | refused hlines hout => exact .finished (.inl hout) fun line hline => (hlines line hline).head?
  | @made lines config hlines hin hlimit =>
    have hreading := List.forall_mem_append.mpr
      ⟨hlines, List.forall_mem_singleton.mpr (isComment_reading file)⟩
    have hhead : ∀ line ∈ lines ++
        [comment "Reading DIMACS file from " ++ Text.quoted file.toList], line.head? = some 'c' :=
      fun line hline => (hreading line hline).head?
    cases content with
    | error reason =>
      refine .finished (.inr (.inl ⟨reason, rfl⟩)) ?_
      exact List.forall_mem_append.mpr ⟨hhead, List.forall_mem_singleton.mpr rfl⟩
    | ok source =>
      simp only
      cases hread : read source with
      | error e =>
        refine .finished (.inr (.inr ⟨source, e, rfl, hread⟩)) ?_
        exact List.forall_mem_append.mpr ⟨hhead, List.forall_mem_singleton.mpr rfl⟩
      | ok cnf =>
        have hcomments := List.forall_mem_append.mpr
          ⟨hreading, List.forall_mem_singleton.mpr (isComment_parsed cnf)⟩
        have hready := IsStarted.ready (not_refused hin hread) rfl hread hcomments hlimit
        rwa [preliminaries, List.append_assoc] at hready

/-! ## Lines by their first character -/

/-- The lines that begin with a character. -/
def linesOf (c : Char) (lines : List OutputLine) : List OutputLine :=
  lines.filter fun line => line.head? = some c

theorem linesOf_append (c : Char) (lines lines' : List OutputLine) :
    linesOf c (lines ++ lines') = linesOf c lines ++ linesOf c lines' :=
  List.filter_append _ _

/-- No line of a rendered instance begins like an answer. -/
theorem head?_renderLines {cnf : Cnf} {line : OutputLine} {x : Char}
    (hline : line ∈ renderLines cnf) (hx : line.head? = some x) : x ≠ 's' ∧ x ≠ 'v' := by
  simp only [renderLines, List.mem_cons, List.mem_map] at hline
  rcases hline with rfl | rfl | ⟨c, -, rfl⟩
  · cases hx
    decide
  · cases hx
    decide
  · rcases mem_closedChars (List.mem_of_mem_head? hx) with rfl | rfl | hdigit
    · decide
    · decide
    · constructor <;> (rintro rfl; contradiction)

section Preliminaries

variable {o : Options} {cnf : Cnf} {comments : List OutputLine}

theorem linesOf_preliminaries (h : ∀ line ∈ comments, IsComment line) {c : Char}
    (hc : c = 's' ∨ c = 'v') : linesOf c (preliminaries o cnf comments) = [] := by
  rw [linesOf, List.filter_eq_nil_iff]
  intro line hline hhead
  rw [decide_eq_true_eq] at hhead
  rcases List.mem_append.mp hline with hline | hline
  · rw [(h line hline).head?] at hhead
    rcases hc with rfl | rfl <;> cases hhead
  · split at hline
    · have hne := head?_renderLines hline hhead
      rcases hc with rfl | rfl
      · exact hne.1 rfl
      · exact hne.2 rfl
    · exact absurd hline List.not_mem_nil

theorem newline_notMem_preliminaries (o : Options) (cnf : Cnf)
    (h : ∀ line ∈ comments, IsComment line) :
    ∀ line ∈ preliminaries o cnf comments, '\n' ∉ line := by
  intro line hline
  rcases List.mem_append.mp hline with hline | hline
  · exact (h line hline).newline_notMem
  · split at hline
    · exact newline_notMem_renderLines hline
    · exact absurd hline List.not_mem_nil

end Preliminaries

/-! ## The answer -/

/-- What a run prints and returns is right about the instance that it has read. -/
structure Answers (o : Options) (source : Source) (cnf : Cnf) (outcome : Outcome) : Prop where
  /-- The lines of the run are the lines of its standard output. -/
  printed : Text.lines (· == '\n') outcome.stdout.toList = outcome.lines.map (· ++ ['\n'])
  code_eq_ten_iff : outcome.code = 10 ↔ cnf.Satisfiable
  code_eq_twenty_iff : outcome.code = 20 ↔ ¬ cnf.Satisfiable
  satisfiable_iff : linesOf 's' outcome.lines = ["s SATISFIABLE".toList] ↔ cnf.Satisfiable
  unsatisfiable_iff : linesOf 's' outcome.lines = ["s UNSATISFIABLE".toList] ↔ ¬ cnf.Satisfiable
  /-- The literals printed are those of a model, one for each atom. -/
  values : o.model = true → cnf.Satisfiable → ∃ ls : Clause,
    linesOf 'v' outcome.lines = ['v' :: ' ' :: ls.closedChars] ∧
      ls.map Literal.atom = List.range' 1 cnf.atomCount ∧ ∀ c ∈ cnf.clauses, ∃ l ∈ c, l ∈ ls
  /-- No file has more bytes than a machine word counts. -/
  reread : o.dimacs = true → o.model = false → source.bytes.length ≤ 18446744073709551615 →
    parse outcome.stdout = .ok cnf

section Answer

variable {o : Options} {source : Source} {cnf : Cnf} {comments tail : List OutputLine} {code : Nat}

theorem lines_stdout (hcomments : ∀ line ∈ comments, IsComment line)
    (htail : ∀ line ∈ tail, '\n' ∉ line) :
    Text.lines (· == '\n') (Outcome.stdout ⟨preliminaries o cnf comments ++ tail, code⟩).toList =
      (preliminaries o cnf comments ++ tail).map (· ++ ['\n']) := by
  have hlines := List.forall_mem_append.mpr
    ⟨newline_notMem_preliminaries o cnf hcomments, htail⟩
  rw [Outcome.stdout, String.toList_ofList]
  refine Text.lines_flatMap_append_end (fun line hline x hx => ?_) (by decide)
  rw [beq_eq_false_iff_ne]
  rintro rfl
  exact hlines line hline hx

/-- With the instance rendered and an answer that is passed over, the output is read as the
instance. -/
theorem parse_stdout (hread : read source = .ok cnf) (hcomments : ∀ line ∈ comments, IsComment line)
    (hdimacs : o.dimacs = true) (hsize : source.bytes.length ≤ 18446744073709551615)
    {answer : OutputLine} (hanswer : '\n' ∉ answer ∧ IsIdle (answer ++ ['\n'])) :
    parse (Outcome.stdout ⟨preliminaries o cnf comments ++ [answer], code⟩) = .ok cnf := by
  rw [parse, Outcome.stdout, String.toList_ofList, preliminaries, if_pos hdimacs, List.append_assoc]
  refine parseChars_around (wellFormed_of_read hread) ((clauseCount_le_of_read hread).trans hsize)
    (fun line hline => ?_) (List.forall_mem_singleton.mpr hanswer)
  exact ⟨(hcomments line hline).newline_notMem, (hcomments line hline).isIdle⟩

theorem newline_notMem_valueLine (m : Model) : '\n' ∉ valueLine m := by
  intro hmem
  simp only [valueLine, List.mem_cons] at hmem
  rcases hmem with h | h | h
  · cases h
  · cases h
  · rcases mem_closedChars h with h | h | h <;> contradiction

/-- Every clause that a model satisfies has one of the literals listed for the model. -/
theorem exists_mem_literals {m : Model} (hcount : m.atomCount = cnf.atomCount)
    (hwf : cnf.WellFormed) (hm : cnf.satisfiedBy m.value = true) {c : Clause}
    (hc : c ∈ cnf.clauses) : ∃ l ∈ c, l ∈ m.literals := by
  obtain ⟨l, hl, htrue⟩ := List.any_eq_true.mp (Cnf.satisfiedBy_iff.mp hm c hc)
  refine ⟨l, hl, List.mem_map.mpr ⟨l.atom, ?_, Literal.ext rfl (eq_of_beq htrue)⟩⟩
  have hpos := (hwf.inRange c hc l hl).1
  have hle := Clause.maxAtom_le_iff.mp (Cnf.maxAtom_le_iff.mp hwf.maxAtom_le c hc) l hl
  rw [List.mem_range'_1, hcount]
  omega

theorem answers_model (hread : read source = .ok cnf)
    (hcomments : ∀ line ∈ comments, IsComment line) {m : Model}
    (hcount : m.atomCount = cnf.atomCount) (hm : cnf.satisfiedBy m.value = true) :
    Answers o source cnf (finish o (preliminaries o cnf comments) (.ok (some m))) := by
  have hsat : cnf.Satisfiable := ⟨m.value, hm⟩
  have hcode : (finish o (preliminaries o cnf comments) (.ok (some m))).code = 10 := rfl
  have hstatus : linesOf 's' (finish o (preliminaries o cnf comments) (.ok (some m))).lines =
      ["s SATISFIABLE".toList] := by
    rw [finish, linesOf_append, linesOf_preliminaries hcomments (.inl rfl)]
    cases o.model <;> rfl
  have hanswer : ∀ line ∈ "s SATISFIABLE".toList :: if o.model then [valueLine m] else [],
      '\n' ∉ line := by
    refine List.forall_mem_cons.mpr ⟨by decide, fun line hline => ?_⟩
    split at hline
    · rw [List.mem_singleton.mp hline]
      exact newline_notMem_valueLine m
    · exact absurd hline List.not_mem_nil
  have hvalues (hmodel : o.model = true) :
      linesOf 'v' (finish o (preliminaries o cnf comments) (.ok (some m))).lines =
        [valueLine m] := by
    rw [finish, linesOf_append, linesOf_preliminaries hcomments (.inr rfl), if_pos hmodel]
    rfl
  have hatoms : m.literals.map Literal.atom = List.range' 1 cnf.atomCount := by
    rw [← hcount, Model.literals, List.map_map]
    exact List.map_id _
  have hwf := wellFormed_of_read hread
  exact {
    printed := lines_stdout hcomments hanswer
    code_eq_ten_iff := iff_of_true hcode hsat
    code_eq_twenty_iff := iff_of_false (by rw [hcode]; decide) (not_not.mpr hsat)
    satisfiable_iff := iff_of_true hstatus hsat
    unsatisfiable_iff := iff_of_false (by rw [hstatus]; decide) (not_not.mpr hsat)
    values := fun hmodel _ =>
      ⟨m.literals, hvalues hmodel, hatoms, fun _ hc => exists_mem_literals hcount hwf hm hc⟩
    reread := by
      intro hdimacs hmodel hsize
      rw [finish, hmodel]
      exact parse_stdout hread hcomments hdimacs hsize ⟨by decide, .inr rfl⟩ }

theorem answers_none (hread : read source = .ok cnf)
    (hcomments : ∀ line ∈ comments, IsComment line) (hno : ∀ v, cnf.satisfiedBy v = false) :
    Answers o source cnf (finish o (preliminaries o cnf comments) (.ok none)) := by
  have hunsat : ¬ cnf.Satisfiable := by
    intro hsat
    obtain ⟨v, hv⟩ := hsat
    rw [hno v] at hv
    cases hv
  have hcode : (finish o (preliminaries o cnf comments) (.ok none)).code = 20 := rfl
  have hstatus : linesOf 's' (finish o (preliminaries o cnf comments) (.ok none)).lines =
      ["s UNSATISFIABLE".toList] := by
    rw [finish, linesOf_append, linesOf_preliminaries hcomments (.inl rfl)]
    rfl
  exact {
    printed := lines_stdout hcomments (List.forall_mem_singleton.mpr (by decide))
    code_eq_ten_iff := iff_of_false (by rw [hcode]; decide) hunsat
    code_eq_twenty_iff := iff_of_true hcode hunsat
    satisfiable_iff := iff_of_false (by rw [hstatus]; decide) hunsat
    unsatisfiable_iff := iff_of_true hstatus hunsat
    values := fun _ hsat => absurd hsat hunsat
    reread := fun hdimacs _ hsize =>
      parse_stdout hread hcomments hdimacs hsize ⟨by decide, .inr rfl⟩ }

/-- Without a time limit the search finds a model or that there is none. -/
theorem answers_findModel (hread : read source = .ok cnf)
    (hcomments : ∀ line ∈ comments, IsComment line) {config : Config}
    (hlimit : config.timeLimit.value = .zero) (clock : Search.Clock) :
    Answers o source cnf (finish o (preliminaries o cnf comments)
      ((Search.oracle clock).findModel cnf (Search.new config 0)).1) := by
  have hwf := wellFormed_of_read hread
  have hzero : ∀ c ∈ cnf.clauses, ¬ Search.HasZero c := by
    rintro c hc ⟨l, hl, h0⟩
    exact Nat.ne_of_gt (hwf.inRange c hc l hl).1 h0
  have hfound := Search.isFound_findModel hzero clock (Search.new config 0)
  generalize ((Search.oracle clock).findModel cnf (Search.new config 0)).1 = result at hfound ⊢
  cases hfound with
  | model hcount hm => exact answers_model hread hcomments hcount hm
  | none hno => exact answers_none hread hcomments hno
  | timeout h => exact absurd hlimit h

end Answer

/-! ## The program -/

/-- The program from its arguments on, with the contents of all files. -/
def runArguments (arguments : List String) (files : String → Except String Source)
    (clock : Search.Clock) : Except UsageError Outcome :=
  (Options.parse arguments).map fun (file, o) => run file o (files file) clock

/-- A command line without a time limit ends with the code 1 exactly if it is refused, and prints
comments only. Otherwise an instance is read, and what is printed and returned is right about it. -/
theorem runArguments_right {arguments : List String} {file : String} {o : Options}
    (hparse : Options.parse arguments = .ok (file, o)) (hlimit : o.timeLimit?.getD 0 = 0)
    (files : String → Except String Source) (clock : Search.Clock) :
    ∃ outcome, runArguments arguments files clock = .ok outcome ∧
      (outcome.code = 1 ↔ Refused o (files file)) ∧
      (Refused o (files file) → ∀ line ∈ outcome.lines, line.head? = some 'c') ∧
      (¬ Refused o (files file) → ∃ source cnf, files file = .ok source ∧
        read source = .ok cnf ∧ Answers o source cnf outcome) := by
  refine ⟨run file o (files file) clock, by rw [runArguments, hparse]; rfl, ?_⟩
  have hstarted := isStarted_start file o (files file)
  unfold run
  generalize start file o (files file) = r at hstarted ⊢
  cases hstarted with
  | finished hrefused hlines =>
    exact ⟨iff_of_true rfl hrefused, fun _ => hlines, fun h => absurd hrefused h⟩
  | @ready comments config source cnf hrefused hcontent hread hcomments hconfig =>
    have hzero : config.timeLimit.value = .zero := by
      rw [hconfig, hlimit]
      rfl
    have hanswers := answers_findModel (o := o) hread hcomments hzero clock
    have hcode : (finish o (preliminaries o cnf comments)
        ((Search.oracle clock).findModel cnf (Search.new config 0)).1).code ≠ 1 := by
      intro hone
      by_cases hsat : cnf.Satisfiable
      · rw [hanswers.code_eq_ten_iff.mpr hsat] at hone
        cases hone
      · rw [hanswers.code_eq_twenty_iff.mpr hsat] at hone
        cases hone
    exact ⟨iff_of_false hcode hrefused, fun h => absurd h hrefused,
      fun _ => ⟨source, cnf, hcontent, hread, hanswers⟩⟩

/-- An instance of two clauses, rendered and solved. -/
theorem runArguments_right_rendered :
    let arguments := ["--dimacs", "f.cnf"]
    let source : Source := ⟨"1 -2 0\n2 0\n".toByteArray.data.toList, false⟩
    let o : Options := { Options.blank with file? := "f.cnf", dimacs := true }
    Options.parse arguments = .ok ("f.cnf", o) ∧ o.timeLimit?.getD 0 = 0 ∧
      ∃ outcome, runArguments arguments (fun _ => .ok source) (fun _ => .zero) = .ok outcome ∧
        outcome.code = 10 ∧
        parse outcome.stdout = .ok ⟨[[⟨1, true⟩, ⟨2, false⟩], [⟨2, true⟩]], 2⟩ := by
  intro arguments source o
  have hparse : Options.parse arguments = .ok ("f.cnf", o) := by cbv
  have hread : read source = .ok ⟨[[⟨1, true⟩, ⟨2, false⟩], [⟨2, true⟩]], 2⟩ := by
    rw [← parse_eq_read]
    rfl
  refine ⟨hparse, rfl, ?_⟩
  obtain ⟨outcome, hrun, -, -, hanswers⟩ :=
    runArguments_right hparse rfl (fun _ => .ok source) (fun _ => .zero)
  have hin : ¬ (OutOfBounds o.polarityBias? ∨ OutOfBounds o.decisionBias?) := by
    rintro (⟨x, hx, -⟩ | ⟨x, hx, -⟩) <;> cases hx
  obtain ⟨source', cnf, hsource, hread', hanswer⟩ := hanswers (not_refused hin hread)
  cases hsource
  rw [hread] at hread'
  cases hread'
  exact ⟨outcome, hrun, hanswer.code_eq_ten_iff.mpr ⟨fun _ => true, rfl⟩,
    hanswer.reread rfl rfl (by decide)⟩

end CommandLine

end Clausal
