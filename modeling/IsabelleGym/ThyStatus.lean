import IsabelleGym.EditScript
import IsabelleGym.LineCount

/-!
# Edit states of a theory and the edits between two of them

A status records one edit and points to the status before it; the chain of
parents is the rollback history. `differenceEdits` computes the edits from one
status to another by a diff of the texts inserted since their nearest common
ancestor.
-/

namespace IsabelleGym

/-- Text as the sequence of its code units. -/
abbrev Text := List Char

abbrev TextEdit := EditScript.Edit Char

inductive TokenKind
  | command | keyword | ident | longIdent | symIdent | variable | typeIdent | typeVar | nat
  | float | space | string | altString | cartouche | control | informalComment | formalComment
  | error | unparsed
deriving DecidableEq

structure Token where
  kind : TokenKind
  source : Text
  content : Text
deriving DecidableEq

namespace Token

def isCommand (tok : Token) (name : Text) : Bool := tok.kind = .command ∧ tok.source = name

def isBegin (tok : Token) : Bool := tok.kind = .keyword ∧ tok.source = "begin".toList

def isIdent (tok : Token) : Bool := tok.kind = .ident

def isName (tok : Token) : Bool :=
  tok.kind = .ident ∨ tok.kind = .longIdent ∨ tok.kind = .symIdent ∨ tok.kind = .string ∨
    tok.kind = .nat

end Token

structure Frame where
  lastTextEdit : Option TextEdit := none
  accumulatedThyHeaderTokens : List Token := []
  inputThyNameVerified : Bool := false
  headerProcessed : Bool := false
  insertionPoint : ℕ := 0
  insertionLine : ℕ := 1
deriving DecidableEq

/-- A status with its chain of parents. Equality compares whole chains. -/
inductive ThyStatus
  | root (frame : Frame)
  | child (frame : Frame) (parent : ThyStatus)
deriving DecidableEq

namespace ThyStatus

def initial : ThyStatus := .root {}

def frame : ThyStatus → Frame
  | .root f => f
  | .child f _ => f

def parent : ThyStatus → Option ThyStatus
  | .root _ => none
  | .child _ p => some p

/-- `copy` of fields other than the parent. -/
def withFrame (s : ThyStatus) (f : Frame) : ThyStatus :=
  match s with
  | .root _ => .root f
  | .child _ p => .child f p

@[simp] theorem frame_root (f : Frame) : (root f).frame = f := rfl

@[simp] theorem frame_child (f : Frame) (p : ThyStatus) : (child f p).frame = f := rfl

@[simp] theorem parent_root (f : Frame) : (root f).parent = none := rfl

@[simp] theorem parent_child (f : Frame) (p : ThyStatus) : (child f p).parent = some p := rfl

@[simp] theorem frame_withFrame (s : ThyStatus) (f : Frame) : (s.withFrame f).frame = f := by
  cases s <;> rfl

@[simp] theorem parent_withFrame (s : ThyStatus) (f : Frame) :
    (s.withFrame f).parent = s.parent := by
  cases s <;> rfl

def lastTextEdit (s : ThyStatus) : Option TextEdit := s.frame.lastTextEdit
def headerProcessed (s : ThyStatus) : Bool := s.frame.headerProcessed
def insertionPoint (s : ThyStatus) : ℕ := s.frame.insertionPoint
def insertionLine (s : ThyStatus) : ℕ := s.frame.insertionLine

/-- The third accumulated token is taken for the theory name. -/
def inputThyName (f : Frame) : Option Text :=
  match f.accumulatedThyHeaderTokens with
  | _ :: _ :: thyTok :: _ => some thyTok.content
  | _ => none

def depth : ThyStatus → ℕ
  | .root _ => 1
  | .child _ p => p.depth + 1

def chain : ThyStatus → List ThyStatus
  | .root f => [.root f]
  | .child f p => .child f p :: p.chain

/-- The loop of the alternating walk: the left branch visits one status and
checks the right branch, then the right branch does so, then both go up. The
check of the right branch overwrites the answer of the left one. -/
def nearestCommonAncestorLoop : ℕ → Option ThyStatus → Option ThyStatus → List ThyStatus →
    List ThyStatus → Option ThyStatus
  | 0, _, _, _, _ => none
  | fuel + 1, currentLeft, currentRight, visitedLeft, visitedRight =>
    if currentLeft.isNone && currentRight.isNone then none
    else
      let ncaLeft := currentLeft.filter (· ∈ visitedRight)
      let visitedLeft := currentLeft.toList ++ visitedLeft
      let ncaRight := currentRight.filter (· ∈ visitedLeft)
      let visitedRight := currentRight.toList ++ visitedRight
      match ncaRight.or ncaLeft with
      | some nca => some nca
      | none => nearestCommonAncestorLoop fuel (currentLeft.bind parent) (currentRight.bind parent)
          visitedLeft visitedRight

def nearestCommonAncestor (s other : ThyStatus) : Option ThyStatus :=
  nearestCommonAncestorLoop (s.depth + other.depth + 1) (some s) (some other) [] []

/-- The texts inserted on the way down from the ancestor. `none` is the failed
requirement that every edit of the history is an insert. -/
def insertionsFromAncestor (ancestor : Option ThyStatus) : ThyStatus → Option Text
  | .root f => if ancestor = some (.root f) then some [] else editText f.lastTextEdit
  | .child f p =>
    if ancestor = some (.child f p) then some []
    else do return (← insertionsFromAncestor ancestor p) ++ (← editText f.lastTextEdit)
where
  editText : Option TextEdit → Option Text
    | none => some []
    | some e => if e.isInsert then some e.text else none

def differenceEdits (diff : Text → Text → List EditScript.Op) (s base : ThyStatus) :
    Option (List TextEdit) :=
  if s = base then some []
  else do
    let nca := s.nearestCommonAncestor base
    let insertionsBase ← insertionsFromAncestor nca base
    let insertionsTarget ← insertionsFromAncestor nca s
    let baseOffset := (nca.map insertionPoint).getD 0
    return EditScript.toEdits insertionsBase insertionsTarget baseOffset
      (diff insertionsBase insertionsTarget)

def editedText (s : ThyStatus) : Text := (s.lastTextEdit.map EditScript.Edit.text).getD []

/-- The document a chain stands for: its recorded texts, oldest first. -/
def text : ThyStatus → Text
  | .root f => (root f).editedText
  | .child f p => p.text ++ (child f p).editedText

theorem flatMap_chain_reverse (s : ThyStatus) : s.chain.reverse.flatMap editedText = s.text := by
  induction s with
  | root f => simp [chain, text]
  | child f p ih => simp [chain, text, ih]

/-- A status of a history tree: the root is untouched, and each edit inserts a text at its
parent's insertion point and moves the point behind it. -/
inductive Recorded : ThyStatus → Prop
  | root {f : Frame} (noEdit : f.lastTextEdit = none) (point : f.insertionPoint = 0) :
      Recorded (.root f)
  | child {f : Frame} {p : ThyStatus} {t : Text} (parent : Recorded p)
      (edit : f.lastTextEdit = some (.insert p.insertionPoint t))
      (point : f.insertionPoint = p.insertionPoint + t.length) : Recorded (.child f p)

def recordInsert (s : ThyStatus) (t : Text) : ThyStatus :=
  .child { s.frame with
    lastTextEdit := some (.insert s.insertionPoint t)
    insertionPoint := s.insertionPoint + t.length } s

theorem Recorded.recordInsert {s : ThyStatus} (h : s.Recorded) (t : Text) :
    (s.recordInsert t).Recorded :=
  .child h rfl rfl

/-- What holds of every chain the program builds: the root is untouched, and
each edit inserts a newline-terminated text at its parent's insertion point. -/
inductive WellFormed : ThyStatus → Prop
  | root {f : Frame} (noEdit : f.lastTextEdit = none) (point : f.insertionPoint = 0)
      (line : f.insertionLine = 1) : WellFormed (.root f)
  | child {f : Frame} {p : ThyStatus} {t : Text} (parent : WellFormed p)
      (edit : f.lastTextEdit = some (.insert p.insertionPoint (t ++ ['\n'])))
      (point : f.insertionPoint = p.insertionPoint + (t ++ ['\n']).length)
      (line : f.insertionLine = p.insertionLine + (t ++ ['\n']).count '\n') :
      WellFormed (.child f p)

theorem wellFormed_initial : initial.WellFormed := .root rfl rfl rfl

theorem WellFormed.recorded {s : ThyStatus} (h : s.WellFormed) : s.Recorded := by
  induction h with
  | root he hp _ => exact .root he hp
  | child _ he hp _ ih => exact .child ih he hp

theorem WellFormed.parent {f : Frame} {p : ThyStatus} (h : WellFormed (.child f p)) :
    p.WellFormed := by
  cases h with
  | child hp => exact hp

/-- The last edit of a well-formed chain, its text and the text before it. -/
theorem WellFormed.text_child {f : Frame} {p : ThyStatus} (h : WellFormed (.child f p)) :
    ∃ t, f.lastTextEdit = some (.insert p.insertionPoint (t ++ ['\n'])) ∧
      (ThyStatus.child f p).text = p.text ++ (t ++ ['\n']) := by
  cases h with
  | @child _ _ t _ he _ _ =>
    refine ⟨t, he, ?_⟩
    simp [text, editedText, lastTextEdit, he]

theorem Recorded.insertionPoint_eq {s : ThyStatus} (h : s.Recorded) :
    s.insertionPoint = s.text.length := by
  induction h with
  | root he hp => simp [insertionPoint, text, editedText, lastTextEdit, he, hp]
  | child hparent he hp ih =>
    simp only [text, editedText, lastTextEdit, frame_child, he, Option.map_some, Option.getD_some,
      EditScript.Edit.insert_text]
    rw [insertionPoint, frame_child, hp, ih, ← List.length_append]

theorem WellFormed.insertionPoint_eq {s : ThyStatus} (h : s.WellFormed) :
    s.insertionPoint = s.text.length :=
  h.recorded.insertionPoint_eq

theorem WellFormed.insertionLine_eq {s : ThyStatus} (h : s.WellFormed) :
    s.insertionLine = 1 + s.text.count '\n' := by
  induction h with
  | root he _ hl => simp [insertionLine, text, editedText, lastTextEdit, he, hl]
  | child hparent he _ hl ih =>
    simp only [text, editedText, lastTextEdit, frame_child, he, Option.map_some, Option.getD_some,
      EditScript.Edit.insert_text]
    rw [insertionLine, frame_child, hl, ih, Nat.add_assoc, ← List.count_append]

theorem WellFormed.terminated {s : ThyStatus} (h : s.WellFormed) :
    LineCount.Terminated '\n' s.text := by
  cases h with
  | root he _ _ => exact Or.inl (by simp [text, editedText, lastTextEdit, he])
  | child hparent he hp hl =>
    obtain ⟨t, _, ht⟩ := (WellFormed.child hparent he hp hl).text_child
    rw [ht]
    exact LineCount.terminated_append_singleton '\n' _ t

theorem mem_chain_self (s : ThyStatus) : s ∈ s.chain := by
  cases s <;> simp [chain]

theorem mem_chain_of_parent {a b p : ThyStatus} (ha : a ∈ b.chain) (hp : a.parent = some p) :
    p ∈ b.chain := by
  induction b with
  | root f =>
    obtain rfl : a = .root f := by simpa [chain] using ha
    simp at hp
  | child f q ih =>
    rcases List.mem_cons.mp ha with rfl | ha'
    · obtain rfl : q = p := by simpa using hp
      exact List.mem_cons_of_mem _ (mem_chain_self q)
    · exact List.mem_cons_of_mem _ (ih ha')

theorem nearestCommonAncestorLoop_mem {s other nca : ThyStatus} (fuel : ℕ)
    (left right : Option ThyStatus) (visitedLeft visitedRight : List ThyStatus)
    (hl : ∀ a ∈ left, a ∈ s.chain) (hr : ∀ a ∈ right, a ∈ other.chain)
    (hvl : ∀ a ∈ visitedLeft, a ∈ s.chain) (hvr : ∀ a ∈ visitedRight, a ∈ other.chain)
    (h : nearestCommonAncestorLoop fuel left right visitedLeft visitedRight = some nca) :
    nca ∈ s.chain ∧ nca ∈ other.chain := by
  induction fuel generalizing left right visitedLeft visitedRight with
  | zero => simp [nearestCommonAncestorLoop] at h
  | succ fuel ih =>
    have hvl' : ∀ a ∈ left.toList ++ visitedLeft, a ∈ s.chain := by
      intro a ha
      rcases List.mem_append.mp ha with ha | ha
      · exact hl a (Option.mem_toList.mp ha)
      · exact hvl a ha
    have hvr' : ∀ a ∈ right.toList ++ visitedRight, a ∈ other.chain := by
      intro a ha
      rcases List.mem_append.mp ha with ha | ha
      · exact hr a (Option.mem_toList.mp ha)
      · exact hvr a ha
    simp only [nearestCommonAncestorLoop] at h
    split at h
    · simp at h
    · split at h
      · rename_i n hn
        obtain rfl : n = nca := by simpa using h
        rcases Option.or_eq_some_iff.mp hn with hright | ⟨_, hleft⟩
        · obtain ⟨hmem, hvis⟩ := Option.filter_eq_some_iff.mp hright
          exact ⟨hvl' _ (by simpa using hvis), hr _ hmem⟩
        · obtain ⟨hmem, hvis⟩ := Option.filter_eq_some_iff.mp hleft
          exact ⟨hl _ hmem, hvr _ (by simpa using hvis)⟩
      · refine ih _ _ _ _ ?_ ?_ hvl' hvr' h
        · intro a ha
          obtain ⟨b, hb, hab⟩ := Option.bind_eq_some_iff.mp ha
          exact mem_chain_of_parent (hl b hb) hab
        · intro a ha
          obtain ⟨b, hb, hab⟩ := Option.bind_eq_some_iff.mp ha
          exact mem_chain_of_parent (hr b hb) hab

theorem nearestCommonAncestor_mem {s other nca : ThyStatus}
    (h : s.nearestCommonAncestor other = some nca) : nca ∈ s.chain ∧ nca ∈ other.chain :=
  nearestCommonAncestorLoop_mem _ (some s) (some other) [] [] (by simp [mem_chain_self])
    (by simp [mem_chain_self]) (by simp) (by simp) h

/-- Along a recorded chain the insertions found on the way down from an
ancestor complete the ancestor's text. -/
theorem Recorded.text_eq_of_ancestor {s nca : ThyStatus} (h : s.Recorded)
    (hmem : nca ∈ s.chain) :
    ∃ t, insertionsFromAncestor (some nca) s = some t ∧ s.text = nca.text ++ t := by
  induction h with
  | @root f he hp =>
    obtain rfl : nca = .root f := by simpa [chain] using hmem
    exact ⟨[], by simp [insertionsFromAncestor], by simp⟩
  | @child f p x hparent he hp ih =>
    by_cases hnca : nca = .child f p
    · subst hnca
      exact ⟨[], by simp [insertionsFromAncestor], by simp⟩
    · obtain ⟨t, ht, htext⟩ := ih ((List.mem_cons.mp hmem).resolve_left hnca)
      refine ⟨t ++ x, ?_, ?_⟩
      · have hne : ¬ some nca = some (ThyStatus.child f p) := fun h => hnca (Option.some.inj h)
        rw [insertionsFromAncestor, if_neg hne, ht]
        simp [insertionsFromAncestor.editText, he]
      · rw [text, htext]
        simp [editedText, lastTextEdit, he]

theorem Recorded.of_mem_chain {s a : ThyStatus} (h : s.Recorded) (ha : a ∈ s.chain) :
    a.Recorded := by
  induction h with
  | @root f he hp =>
    obtain rfl : a = .root f := by simpa [chain] using ha
    exact .root he hp
  | @child f p x hparent he hp ih =>
    rcases List.mem_cons.mp ha with rfl | ha'
    · exact .child hparent he hp
    · exact ih ha'

theorem WellFormed.of_mem_chain {s a : ThyStatus} (h : s.WellFormed) (ha : a ∈ s.chain) :
    a.WellFormed := by
  induction h with
  | @root f he hp hl =>
    obtain rfl : a = .root f := by simpa [chain] using ha
    exact .root he hp hl
  | @child f p x hparent he hp hl ih =>
    rcases List.mem_cons.mp ha with rfl | ha'
    · exact .child hparent he hp hl
    · exact ih ha'

theorem Recorded.insertions_none {s : ThyStatus} (h : s.Recorded) :
    insertionsFromAncestor none s = some s.text := by
  induction h with
  | root he _ =>
    simp [insertionsFromAncestor, insertionsFromAncestor.editText, text, editedText,
      lastTextEdit, he]
  | child hparent he hp ih =>
    simp [insertionsFromAncestor, insertionsFromAncestor.editText, text, editedText, lastTextEdit,
      he, ih]

/-- Restoring `s` from `base` by the difference edits rewrites the text of
`base` into the text of `s`, and every edit fits the text it is applied to. -/
theorem differenceEdits_spec {diff : Text → Text → List EditScript.Op}
    (hdiff : ∀ a b, EditScript.IsScript a b (diff a b)) {s base : ThyStatus}
    (hs : s.Recorded) (hb : base.Recorded) :
    ∃ edits, s.differenceEdits diff base = some edits ∧
      EditScript.applyAll edits base.text = s.text ∧ EditScript.MatchesAll edits base.text := by
  by_cases heq : s = base
  · exact ⟨[], by simp [differenceEdits, heq], by simp [heq], trivial⟩
  · cases hnca : s.nearestCommonAncestor base with
    | none =>
      refine ⟨EditScript.toEdits base.text s.text 0 (diff base.text s.text), ?_, ?_⟩
      · simp [differenceEdits, heq, hnca, hs.insertions_none, hb.insertions_none]
      · simpa using EditScript.applyAll_toEdits (hdiff base.text s.text) []
    | some nca =>
      obtain ⟨hms, hmb⟩ := nearestCommonAncestor_mem hnca
      obtain ⟨ts, hts, htexts⟩ := hs.text_eq_of_ancestor hms
      obtain ⟨tb, htb, htextb⟩ := hb.text_eq_of_ancestor hmb
      refine ⟨EditScript.toEdits tb ts nca.insertionPoint (diff tb ts), ?_, ?_⟩
      · simp [differenceEdits, heq, hnca, hts, htb]
      · rw [htextb, htexts, (hs.of_mem_chain hms).insertionPoint_eq]
        exact EditScript.applyAll_toEdits (hdiff tb ts) nca.text

/-- The difference edits, applied one after another to the text of `base`, yield the text of
`target`, and the text has at each edit's offset what the edit removes when its turn comes. -/
theorem differenceEdits_rewrites {diff : Text → Text → List EditScript.Op}
    (hdiff : ∀ a b, EditScript.IsScript a b (diff a b)) {target base : ThyStatus}
    (ht : target.Recorded) (hb : base.Recorded) :
    ∃ edits, target.differenceEdits diff base = some edits ∧
      EditScript.applyAll edits base.text = target.text ∧
      ∀ before e after, edits = before ++ e :: after →
        e.Matches (EditScript.applyAll before base.text) := by
  obtain ⟨edits, hedits, htext, hmatches⟩ := differenceEdits_spec hdiff ht hb
  exact ⟨edits, hedits, htext, EditScript.matchesAll_iff.mp hmatches⟩

theorem differenceEdits_rewrites_parent :
    ∃ edits, (initial.recordInsert ['x']).differenceEdits EditScript.replace
        ((initial.recordInsert ['x']).recordInsert ['y']) = some edits ∧
      EditScript.applyAll edits ((initial.recordInsert ['x']).recordInsert ['y']).text =
        (initial.recordInsert ['x']).text ∧
      ∀ before e after, edits = before ++ e :: after →
        e.Matches (EditScript.applyAll before
          ((initial.recordInsert ['x']).recordInsert ['y']).text) :=
  have hx : (initial.recordInsert ['x']).Recorded :=
    wellFormed_initial.recorded.recordInsert ['x']
  differenceEdits_rewrites EditScript.isScript_replace hx (hx.recordInsert ['y'])

end ThyStatus
end IsabelleGym
