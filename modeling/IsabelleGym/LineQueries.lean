import IsabelleGym.ChunkReport

/-!
# Queries by line

A query for a line is answered for one command: the last command that is not
ignored among those that start up to the offset of the line. Two commands may
share a line, and then the queries see the first of them only where it reaches
the start of another line. How Isabelle finds the offset and the command are the
fields of `LineLookup`, each with the documented behaviour the queries rely on.
-/

namespace IsabelleGym

section Lines

/-- The offset where a line starts, the lines counted from zero, in a text without carriage
returns. -/
def lineOffset : ℕ → Text → Option ℕ
  | 0, _ => some 0
  | _ + 1, [] => none
  | line + 1, c :: t =>
    if c = '\n' then (lineOffset line t).map (· + 1) else (lineOffset (line + 1) t).map (· + 1)

theorem terminated_of_cons {c : Char} {t : Text} (h : LineCount.Terminated '\n' (c :: t)) :
    LineCount.Terminated '\n' t ∧ (t = [] → c = '\n') := by
  rcases h with hnil | ⟨u, hu⟩
  · cases hnil
  · cases u with
    | nil =>
      obtain ⟨hc, hrest⟩ := List.cons.inj hu
      exact ⟨Or.inl hrest, fun _ => hc⟩
    | cons d u =>
      obtain ⟨_, hrest⟩ := List.cons.inj hu
      exact ⟨Or.inr ⟨u, hrest⟩, fun hnil => by simp [hnil] at hrest⟩

theorem terminated_cons {c : Char} {t : Text} (h : LineCount.Terminated '\n' t)
    (hc : t = [] → c = '\n') : LineCount.Terminated '\n' (c :: t) := by
  rcases h with rfl | ⟨u, rfl⟩
  · exact Or.inr ⟨[], by rw [hc rfl]; rfl⟩
  · exact Or.inr ⟨c :: u, rfl⟩

theorem lineOffset_sound {line : ℕ} {t : Text} {o : ℕ} (h : lineOffset line t = some o) :
    o ≤ t.length ∧ LineCount.Terminated '\n' (t.take o) ∧ (t.take o).count '\n' = line := by
  induction t generalizing line o with
  | nil =>
    cases line with
    | zero =>
      cases h
      exact ⟨Nat.le_refl 0, Or.inl rfl, rfl⟩
    | succ line => cases h
  | cons c t ih =>
    cases line with
    | zero =>
      cases h
      exact ⟨Nat.zero_le _, Or.inl rfl, rfl⟩
    | succ line =>
      rw [lineOffset] at h
      split_ifs at h with hc
      · obtain ⟨o', ho', rfl⟩ := Option.map_eq_some_iff.mp h
        obtain ⟨hle, hterm, hcount⟩ := ih ho'
        rw [List.take_succ_cons, hc, List.count_cons_self, hcount]
        exact ⟨Nat.succ_le_succ hle, terminated_cons hterm fun _ => rfl, rfl⟩
      · obtain ⟨o', ho', rfl⟩ := Option.map_eq_some_iff.mp h
        obtain ⟨hle, hterm, hcount⟩ := ih ho'
        rw [List.take_succ_cons, List.count_cons_of_ne hc, hcount]
        refine ⟨Nat.succ_le_succ hle, terminated_cons hterm fun hnil => ?_, rfl⟩
        rw [hnil] at hcount
        cases hcount

theorem lineOffset_of_terminated {t : Text} {o : ℕ} (hle : o ≤ t.length)
    (hterm : LineCount.Terminated '\n' (t.take o)) :
    lineOffset ((t.take o).count '\n') t = some o := by
  induction t generalizing o with
  | nil =>
    obtain rfl := Nat.le_zero.mp hle
    rfl
  | cons c t ih =>
    cases o with
    | zero => rfl
    | succ o =>
      rw [List.take_succ_cons] at hterm ⊢
      obtain ⟨hrest, hnil⟩ := terminated_of_cons hterm
      have htail := ih (Nat.le_of_succ_le_succ hle) hrest
      by_cases hc : c = '\n'
      · rw [hc, List.count_cons_self, lineOffset, if_pos rfl, htail]
        rfl
      · rw [List.count_cons_of_ne hc]
        have hpos : 0 < (t.take o).count '\n' := by
          rcases hrest with hempty | ⟨u, hu⟩
          · exact absurd (hnil hempty) hc
          · rw [hu]
            simp
        obtain ⟨line, hline⟩ := Nat.exists_eq_succ_of_ne_zero hpos.ne'
        rw [hline] at htail ⊢
        rw [lineOffset, if_neg hc, htail]
        rfl

theorem exists_lineOffset {line : ℕ} {t : Text} (h : line ≤ t.count '\n') :
    ∃ o, lineOffset line t = some o := by
  induction t generalizing line with
  | nil =>
    obtain rfl := Nat.le_zero.mp h
    exact ⟨0, rfl⟩
  | cons c t ih =>
    cases line with
    | zero => exact ⟨0, rfl⟩
    | succ line =>
      by_cases hc : c = '\n'
      · rw [hc, List.count_cons_self] at h
        obtain ⟨o, ho⟩ := ih (Nat.le_of_succ_le_succ h)
        exact ⟨o + 1, by rw [lineOffset, if_pos hc, ho]; rfl⟩
      · rw [List.count_cons_of_ne hc] at h
        obtain ⟨o, ho⟩ := ih h
        exact ⟨o + 1, by rw [lineOffset, if_neg hc, ho]; rfl⟩

/-- The line of an offset starts at or before it, and there where the text so far is terminated. -/
theorem exists_lineStart_le (t : Text) (start : ℕ) :
    ∃ o ≤ start, LineCount.Terminated '\n' (t.take o) ∧
      (t.take o).count '\n' = (t.take start).count '\n' ∧
      (o = start ↔ LineCount.Terminated '\n' (t.take start)) := by
  by_cases hterm : LineCount.Terminated '\n' (t.take start)
  · exact ⟨start, Nat.le_refl start, hterm, rfl, iff_of_true rfl hterm⟩
  · obtain ⟨o, ho⟩ := exists_lineOffset (LineCount.count_take_le '\n' t start)
    obtain ⟨hle, hterm', hcount⟩ := lineOffset_sound ho
    have hne : o ≠ start := fun heq => hterm (heq ▸ hterm')
    refine ⟨o, ?_, hterm', hcount, iff_of_false hne hterm⟩
    by_contra hlt
    have hshort : start < (t.take o).length := by
      rw [List.length_take]
      omega
    have hless := LineCount.count_take_lt hterm' hshort
    rw [List.take_take, Nat.min_eq_left (by omega), hcount] at hless
    exact Nat.lt_irrefl _ hless

theorem col_linePosition {t : Text} {start : ℕ} :
    (OuterSyntax.linePosition t start).col = 1 ↔ LineCount.Terminated '\n' (t.take start) := by
  have hcol : (OuterSyntax.linePosition t start).col =
      1 + ((t.take start).reverse.takeWhile (· ≠ '\n')).length := rfl
  rw [hcol]
  rcases List.eq_nil_or_concat (t.take start) with hnil | ⟨u, c, hu⟩
  · simp [hnil, LineCount.Terminated]
  · rw [hu, List.concat_eq_append]
    by_cases hc : c = '\n'
    · refine iff_of_true ?_ (Or.inr ⟨u, by rw [hc]⟩)
      simp [hc]
    · refine iff_of_false (by simp [hc]) ?_
      rintro (hnil | ⟨v, hv⟩)
      · simp at hnil
      · exact hc (by simpa using (List.append_inj' hv rfl).2)

end Lines

section Search

variable {α : Type*} {l : List α} {p : α → Bool}

/-- Where the elements that satisfy `p` come first, taking them is filtering them. -/
theorem takeWhile_eq_filter (h : l.Pairwise fun a b => p b = true → p a = true) :
    l.takeWhile p = l.filter p := by
  induction l with
  | nil => rfl
  | cons a l ih =>
    obtain ⟨hfirst, hrest⟩ := List.pairwise_cons.mp h
    by_cases ha : p a = true
    · rw [List.takeWhile_cons_of_pos ha, List.filter_cons_of_pos ha, ih hrest]
    · rw [List.takeWhile_cons_of_neg ha, List.filter_cons_of_neg ha, List.filter_eq_nil_iff.mpr]
      exact fun b hb hp => ha (hfirst b hb hp)

/-- A search from the end finds the last hit. -/
theorem find?_reverse_eq_some_iff {f : α → ℕ} (h : l.Pairwise fun a b => f a < f b) {x : α} :
    l.reverse.find? p = some x ↔
      x ∈ l ∧ p x = true ∧ ∀ y ∈ l, p y = true → y = x ∨ f y < f x := by
  induction l with
  | nil => simp
  | cons a l ih =>
    obtain ⟨hfirst, hrest⟩ := List.pairwise_cons.mp h
    rw [List.reverse_cons, List.find?_append, Option.or_eq_some_iff, ih hrest]
    constructor
    · rintro (⟨hx, hp, hall⟩ | ⟨hnone, hfound⟩)
      · refine ⟨List.mem_cons_of_mem a hx, hp, ?_⟩
        rintro y (_ | ⟨_, hy⟩) hpy
        · exact Or.inr (hfirst x hx)
        · exact hall y hy hpy
      · obtain ⟨hpa, rfl⟩ : p a = true ∧ a = x := by
          rw [List.find?_singleton] at hfound
          split_ifs at hfound with hpa
          exact ⟨hpa, Option.some.inj hfound⟩
        refine ⟨List.mem_cons_self, hpa, ?_⟩
        rintro y (_ | ⟨_, hy⟩) hpy
        · exact Or.inl rfl
        · exact absurd hpy (List.find?_eq_none.mp hnone y (List.mem_reverse.mpr hy))
    · rintro ⟨hx, hp, hall⟩
      rcases List.mem_cons.mp hx with rfl | hx
      · refine Or.inr ⟨?_, by simp [hp]⟩
        rw [List.find?_eq_none]
        intro y hy hpy
        have hy := List.mem_reverse.mp hy
        have hlater := hfirst y hy
        rcases hall y (List.mem_cons_of_mem _ hy) hpy with rfl | hless
        · exact Nat.lt_irrefl _ hlater
        · exact Nat.lt_asymm hlater hless
      · exact Or.inl ⟨hx, hp, fun y hy => hall y (List.mem_cons_of_mem a hy)⟩

end Search

section Commands

variable (I : Isabelle) (node : Node)

def numberedCommands : List ((Span × ℕ) × ℕ) := (commandIterator (I.commands node) 0).zipIdx

def findShown (commands : List ((Span × ℕ) × ℕ)) : Option ((Span × ℕ) × ℕ) :=
  commands.reverse.find? fun command => !command.1.1.isIgnored

/-- The last command that is not ignored among those that start up to the offset. -/
def LastShown (offset : ℕ) (x : (Span × ℕ) × ℕ) : Prop :=
  x ∈ numberedCommands I node ∧ x.1.1.isIgnored = false ∧ x.1.2 ≤ offset ∧
    ∀ y ∈ numberedCommands I node, y.1.1.isIgnored = false → x.2 < y.2 → offset < y.1.2

variable {I node}

theorem pairwise_commandIterator {sps : List Span} (h : ∀ sp ∈ sps, sp.source ≠ []) (b : ℕ) :
    (commandIterator sps b).Pairwise fun x y => x.2 < y.2 := by
  induction sps generalizing b with
  | nil => exact List.Pairwise.nil
  | cons sp sps ih =>
    refine List.pairwise_cons.mpr ⟨?_, ih (fun sp' h' => h sp' (List.mem_cons_of_mem sp h')) _⟩
    intro x hx
    obtain ⟨pre, post, _, ho⟩ := exists_split_of_mem_commandIterator hx
    have hpos := List.length_pos_of_ne_nil (h sp List.mem_cons_self)
    rw [ho]
    omega

theorem mem_numberedCommands {x : (Span × ℕ) × ℕ} :
    x ∈ numberedCommands I node ↔ (commandIterator (I.commands node) 0)[x.2]? = some x.1 :=
  List.mem_zipIdx_iff_getElem?

/-- Offsets and numbers of the commands grow together. -/
theorem pairwise_numberedCommands (I : Isabelle) (node : Node) :
    (numberedCommands I node).Pairwise fun x y => x.1.2 < y.1.2 ∧ x.2 < y.2 := by
  have hstarts := pairwise_commandIterator (I.spans_source_ne_nil node.header node.text) 0
  rw [List.pairwise_iff_getElem] at hstarts ⊢
  intro i j hi hj hij
  unfold numberedCommands at hi hj ⊢
  rw [List.length_zipIdx] at hi hj
  simp only [List.getElem_zipIdx]
  exact ⟨hstarts i j hi hj hij, by omega⟩

theorem numberedCommands_trichotomy {x y : (Span × ℕ) × ℕ} (hx : x ∈ numberedCommands I node)
    (hy : y ∈ numberedCommands I node) :
    x = y ∨ (x.1.2 < y.1.2 ∧ x.2 < y.2) ∨ (y.1.2 < x.1.2 ∧ y.2 < x.2) := by
  obtain ⟨i, hi, rfl⟩ := List.mem_iff_getElem.mp hx
  obtain ⟨j, hj, rfl⟩ := List.mem_iff_getElem.mp hy
  have hpairs := List.pairwise_iff_getElem.mp (pairwise_numberedCommands I node)
  rcases Nat.lt_trichotomy i j with hij | rfl | hij
  · exact Or.inr (Or.inl (hpairs i j hi hj hij))
  · exact Or.inl rfl
  · exact Or.inr (Or.inr (hpairs j i hj hi hij))

theorem numberedCommands_ext {x y : (Span × ℕ) × ℕ} (hx : x ∈ numberedCommands I node)
    (hy : y ∈ numberedCommands I node) (h : x.2 = y.2) : x = y := by
  rcases numberedCommands_trichotomy hx hy with heq | ⟨_, hlt⟩ | ⟨_, hlt⟩
  · exact heq
  · exact absurd h (Nat.ne_of_lt hlt)
  · exact absurd h (Nat.ne_of_gt hlt)

theorem findShown_takeWhile_eq_some_iff {offset : ℕ} {x : (Span × ℕ) × ℕ} :
    findShown ((numberedCommands I node).takeWhile fun command => command.1.2 ≤ offset) =
      some x ↔ LastShown I node offset x := by
  have hpairs := pairwise_numberedCommands I node
  rw [LastShown, findShown, takeWhile_eq_filter, find?_reverse_eq_some_iff
    (f := Prod.snd)]
  · simp only [List.mem_filter, decide_eq_true_eq, Bool.not_eq_true']
    constructor
    · rintro ⟨⟨hx, hle⟩, hshown, hall⟩
      refine ⟨hx, hshown, hle, fun y hy hy' hlater => ?_⟩
      by_contra hnot
      rcases hall y ⟨hy, Nat.not_lt.mp hnot⟩ hy' with rfl | hless
      · exact Nat.lt_irrefl _ hlater
      · exact Nat.lt_asymm hlater hless
    · rintro ⟨hx, hshown, hle, hall⟩
      refine ⟨⟨hx, hle⟩, hshown, ?_⟩
      rintro y ⟨hy, hyle⟩ hy'
      rcases numberedCommands_trichotomy hx hy with rfl | ⟨_, hlater⟩ | ⟨_, hearlier⟩
      · exact Or.inl rfl
      · exact absurd (hall y hy hy' hlater) (Nat.not_lt.mpr hyle)
      · exact Or.inr hearlier
  · exact (hpairs.imp fun h => h.2).filter _
  · refine hpairs.imp fun h => ?_
    simp only [decide_eq_true_eq]
    exact fun hle => Nat.le_trans (Nat.le_of_lt h.1) hle

end Commands

/-- What a query by line asks Isabelle for. -/
structure LineLookup (I : Isabelle) where
  /-- `Line.Document.offset` of the first column of a line, the lines counted from zero. -/
  lineOffset : Text → ℕ → Option ℕ
  lineOffset_start : ∀ t, '\r' ∉ t → ∀ o ≤ t.length, LineCount.Terminated '\n' (t.take o) →
    lineOffset t ((t.take o).count '\n') = some o
  /-- The columns of `Line.Document.range`, on the same lines. -/
  linePosition_col : ∀ t, '\r' ∉ t → ∀ o ≤ t.length,
    ((I.linePosition t o).col = 1 ↔ LineCount.Terminated '\n' (t.take o))
  /-- `Snapshot.current_command`, a command by its number in the node. -/
  currentCommand : Node → ℕ → Option ℕ
  currentCommand_iff : ∀ node offset i,
    currentCommand node offset = some i ↔ ∃ x, LastShown I node offset x ∧ x.2 = i

section Queries

variable {I : Isabelle} (L : LineLookup I) (node : Node) (results : ℕ → List Message)

def commandContainingLine (line : ℕ) : Option ((Span × ℕ) × ℕ) :=
  if line < 1 then none
  else do
    let offset ← L.lineOffset node.text (line - 1)
    let i ← L.currentCommand node offset
    let command ← (commandIterator (I.commands node) 0)[i]?
    return (command, i)

structure CommandInfo where
  kind : String
  source : Text
  range : LinePosition × LinePosition
deriving DecidableEq

def commandInfo (I : Isabelle) (command : Span) (start : ℕ) : CommandInfo where
  kind := command.name
  source := command.source
  range := (I.linePosition node.text start,
    I.linePosition node.text (start + command.source.length))

def lastStateMessage (i : ℕ) : Option Text :=
  ((results i).filter fun m => m.markup = .state).getLast?.map Message.text

def commandAtLine (line : ℕ) : Option CommandInfo :=
  (commandContainingLine L node line).map fun ((command, start), _) =>
    commandInfo node I command start

structure GoalsReport where
  command : CommandInfo
  goalsBefore : List Text
  goalsAfter : List Text
deriving DecidableEq

def goalsAtLine (line : ℕ) : Option GoalsReport :=
  (commandContainingLine L node line).map fun ((command, start), i) =>
    { command := commandInfo node I command start
      goalsBefore := ((findShown ((numberedCommands I node).take i)).bind fun (_, previous) =>
        lastStateMessage results previous).toList
      goalsAfter := (lastStateMessage results i).toList }

variable {L node}

theorem commandContainingLine_eq_some_iff {line : ℕ} {x : (Span × ℕ) × ℕ} :
    commandContainingLine L node line = some x ↔
      ∃ o, 1 ≤ line ∧ L.lineOffset node.text (line - 1) = some o ∧ LastShown I node o x := by
  unfold commandContainingLine
  split_ifs with hline
  · refine iff_of_false (by simp) ?_
    rintro ⟨_, hpos, _⟩
    exact Nat.not_lt.mpr hpos hline
  · rw [Option.bind_eq_bind, Option.bind_eq_some_iff]
    refine exists_congr fun o => ?_
    constructor
    · rintro ⟨ho, hcurrent⟩
      obtain ⟨i, hi, hstart⟩ := Option.bind_eq_some_iff.mp hcurrent
      obtain ⟨command, hcommand, hx⟩ := Option.bind_eq_some_iff.mp hstart
      obtain rfl := Option.some.inj hx
      obtain ⟨y, hy, rfl⟩ := (L.currentCommand_iff node o i).mp hi
      have hsame : y = (command, y.2) :=
        numberedCommands_ext hy.1 (mem_numberedCommands.mpr hcommand) rfl
      exact ⟨Nat.not_lt.mp hline, ho, hsame ▸ hy⟩
    · rintro ⟨_, ho, hlast⟩
      have hi := (L.currentCommand_iff node o x.2).mpr ⟨x, hlast, rfl⟩
      refine ⟨ho, Option.bind_eq_some_iff.mpr ⟨x.2, hi, Option.bind_eq_some_iff.mpr ⟨x.1, ?_, rfl⟩⟩⟩
      exact mem_numberedCommands.mp hlast.1

/-- The line that a chunk report gives for a command asks for that command exactly if the report
has it start in the first column, where the text has no carriage returns. -/
theorem commandContainingLine_nodeLine_iff {sinceLine : ℕ} {ev : Evaluation} {r : ReportedCommand}
    (hplain : '\r' ∉ node.text) (hr : r ∈ reportedCommands I node sinceLine ev) :
    (commandContainingLine L node r.nodeLine).map Prod.snd = some r.i ↔ r.range.1.col = 1 := by
  obtain ⟨c, start, hi, _, hshown, hline, _, _, hrange⟩ := exists_of_mem_reportedCommands hr
  have hx : ((c, start), r.i) ∈ numberedCommands I node := mem_numberedCommands.mpr hi
  have hlen : start ≤ node.text.length :=
    Nat.le_of_lt (I.start_lt_length (List.mem_of_getElem? hi))
  obtain ⟨o, hle, hstart, hcount, hterm⟩ := exists_lineStart_le node.text start
  have hline' : r.nodeLine - 1 = (node.text.take start).count '\n' := by
    rw [hline, Node.commandStartLine, LineCount.lineAt]
    omega
  have hpos : 1 ≤ r.nodeLine := by
    rw [hline, Node.commandStartLine, LineCount.lineAt]
    omega
  have ho : L.lineOffset node.text (r.nodeLine - 1) = some o := by
    rw [hline', ← hcount]
    exact L.lineOffset_start node.text hplain o (Nat.le_trans hle hlen) hstart
  rw [hrange, L.linePosition_col node.text hplain start hlen, ← hterm]
  constructor
  · intro hfound
    obtain ⟨x, hx', hnumber⟩ := Option.map_eq_some_iff.mp hfound
    obtain ⟨o', _, ho', hmem, _, hbefore, _⟩ := commandContainingLine_eq_some_iff.mp hx'
    rw [ho] at ho'
    obtain rfl := Option.some.inj ho'
    rw [numberedCommands_ext hmem hx hnumber] at hbefore
    exact Nat.le_antisymm hle hbefore
  · rintro rfl
    refine Option.map_eq_some_iff.mpr ⟨((c, o), r.i), ?_, rfl⟩
    refine commandContainingLine_eq_some_iff.mpr ⟨o, hpos, ho, hx, hshown, Nat.le_refl o, ?_⟩
    intro y hy _ hlater
    rcases numberedCommands_trichotomy hx hy with rfl | ⟨hless, _⟩ | ⟨_, hearlier⟩
    · exact absurd hlater (Nat.lt_irrefl _)
    · exact hless
    · exact absurd hlater (Nat.lt_asymm hearlier)

section Goals

variable (results : ℕ → List Message)

theorem mem_take_numberedCommands {n : ℕ} {z : (Span × ℕ) × ℕ} :
    z ∈ (numberedCommands I node).take n ↔ z ∈ numberedCommands I node ∧ z.2 < n := by
  have hnumber : ∀ i, (numberedCommands I node)[i]? = some z → z.2 = i := by
    intro i hi
    rw [numberedCommands, List.getElem?_zipIdx, Option.map_eq_some_iff] at hi
    obtain ⟨command, _, rfl⟩ := hi
    exact Nat.zero_add i
  constructor
  · intro hz
    obtain ⟨i, hi⟩ := List.mem_iff_getElem?.mp hz
    rw [List.getElem?_take] at hi
    split_ifs at hi with hlt
    exact ⟨List.mem_of_getElem? hi, (hnumber i hi).symm ▸ hlt⟩
  · rintro ⟨hz, hlt⟩
    obtain ⟨i, hi⟩ := List.mem_iff_getElem?.mp hz
    refine List.mem_iff_getElem?.mpr ⟨i, ?_⟩
    rw [List.getElem?_take, if_pos ((hnumber i hi) ▸ hlt), hi]

/-- Behind the goals of a command, a query finds the same goals before the next command. -/
theorem goalsBefore_eq_goalsAfter {line line' : ℕ} {x y : (Span × ℕ) × ℕ}
    (hx : commandContainingLine L node line = some x)
    (hy : commandContainingLine L node line' = some y) (hless : x.2 < y.2)
    (hbetween : ∀ z ∈ numberedCommands I node, x.2 < z.2 → z.2 < y.2 → z.1.1.isIgnored = true) :
    ∃ g g', goalsAtLine L node results line = some g ∧ goalsAtLine L node results line' = some g' ∧
      g'.goalsBefore = g.goalsAfter := by
  obtain ⟨o, _, _, hmem, hshown, _⟩ := commandContainingLine_eq_some_iff.mp hx
  have hprevious : findShown ((numberedCommands I node).take y.2) = some x := by
    rw [findShown, find?_reverse_eq_some_iff (f := Prod.snd)]
    · refine ⟨mem_take_numberedCommands.mpr ⟨hmem, hless⟩, by simp [hshown], ?_⟩
      intro z hz hzshown
      obtain ⟨hz, hzless⟩ := mem_take_numberedCommands.mp hz
      rcases numberedCommands_trichotomy hmem hz with rfl | ⟨_, hlater⟩ | ⟨_, hearlier⟩
      · exact Or.inl rfl
      · simp [hbetween z hz hlater hzless] at hzshown
      · exact Or.inr hearlier
    · exact ((pairwise_numberedCommands I node).imp fun h => h.2).sublist (List.take_sublist _ _)
  refine ⟨_, _, by rw [goalsAtLine, hx]; rfl, by rw [goalsAtLine, hy]; rfl, ?_⟩
  simp [hprevious]

end Goals

end Queries

section Example

def wordLookup : LineLookup OuterSyntax.isabelle where
  lineOffset t line := lineOffset line t
  lineOffset_start _ _ _ ho hterm := lineOffset_of_terminated ho hterm
  linePosition_col _ _ _ _ := col_linePosition
  currentCommand node offset :=
    (findShown ((numberedCommands OuterSyntax.isabelle node).takeWhile fun command =>
      command.1.2 ≤ offset)).map Prod.snd
  currentCommand_iff _ _ _ := by
    rw [Option.map_eq_some_iff]
    exact exists_congr fun x => and_congr_left' findShown_takeWhile_eq_some_iff

def twoLemmas : Node := { text := "lemma\nlemma\n".toList }

def lemmaAt (start i : ℕ) : (Span × ℕ) × ℕ := ((⟨.command "lemma", "lemma".toList⟩, start), i)

theorem nodeLine_oneLemma :
    (commandContainingLine wordLookup oneLemma 1).map Prod.snd = some 0 :=
  (@commandContainingLine_nodeLine_iff OuterSyntax.isabelle wordLookup oneLemma 1
    failedThenUntracked ⟨0, 1, 1, "lemma", .ok, [], (⟨1, 1⟩, ⟨1, 6⟩)⟩ (by decide)
    (by decide +kernel)).mpr rfl

theorem goalsBefore_twoLemmas :
    ∃ g g', goalsAtLine wordLookup twoLemmas (fun _ => [⟨.state, "goal".toList⟩]) 1 =
        some g ∧
      goalsAtLine wordLookup twoLemmas (fun _ => [⟨.state, "goal".toList⟩]) 2 = some g' ∧
      g'.goalsBefore = g.goalsAfter :=
  goalsBefore_eq_goalsAfter _ (x := lemmaAt 0 0) (y := lemmaAt 6 2) (by decide +kernel)
    (by decide +kernel) (by decide) (by decide +kernel)

end Example
end IsabelleGym
