import Mathlib.Data.List.Basic
import Mathlib.Data.List.Infix

/-!
# Insert and remove edits on sequences

An edit inserts or removes one block at an offset. Edits are applied one after
another, each to the result of the one before. The second half turns a script
in base coordinates, the form in which a diff library reports its operations,
into such a list of edits by carrying a running offset, and proves that the
edits rewrite the base into the target inside any fixed prefix.
-/

namespace EditScript

variable {α : Type*}

/-- One block edit. The block of a remove edit is the block it takes away. -/
structure Edit (α : Type*) where
  isInsert : Bool
  start : ℕ
  text : List α
deriving DecidableEq

namespace Edit

def insert (start : ℕ) (text : List α) : Edit α := ⟨true, start, text⟩

def remove (start : ℕ) (text : List α) : Edit α := ⟨false, start, text⟩

def apply (e : Edit α) (t : List α) : List α :=
  if e.isInsert then t.take e.start ++ e.text ++ t.drop e.start
  else t.take e.start ++ t.drop (e.start + e.text.length)

/-- The edit fits the sequence: an insert lies within it and a remove names
exactly the block found at its offset. -/
def Matches (e : Edit α) (t : List α) : Prop :=
  e.start ≤ t.length ∧ (e.isInsert = false → e.text <+: t.drop e.start)

@[simp] theorem insert_start (n : ℕ) (x : List α) : (insert n x).start = n := rfl

@[simp] theorem insert_text (n : ℕ) (x : List α) : (insert n x).text = x := rfl

@[simp] theorem insert_isInsert (n : ℕ) (x : List α) : (insert n x).isInsert = true := rfl

@[simp] theorem apply_insert_append (p x q : List α) :
    (insert p.length x).apply (p ++ q) = p ++ x ++ q := by
  simp [apply, insert]

@[simp] theorem apply_remove_append (p x q : List α) :
    (remove p.length x).apply (p ++ x ++ q) = p ++ q := by
  simp [apply, remove, List.append_assoc, List.drop_append]

theorem matches_insert_append (p x q : List α) : (insert p.length x).Matches (p ++ q) := by
  simp [Matches, insert]

theorem matches_remove_append (p x q : List α) : (remove p.length x).Matches (p ++ x ++ q) := by
  simp [Matches, remove, List.append_assoc]

/-- Removing a block right after inserting it restores any sequence that the
insertion offset lies in. -/
theorem remove_apply_insert {n : ℕ} {t : List α} (x : List α) (hn : n ≤ t.length) :
    (remove n x).apply ((insert n x).apply t) = t := by
  have ht : (insert n x).apply t = t.take n ++ x ++ t.drop n := by simp [apply, insert]
  have hlen : (t.take n).length = n := List.length_take_of_le hn
  have h := apply_remove_append (t.take n) x (t.drop n)
  rw [hlen] at h
  rw [ht, h, List.take_append_drop]

end Edit

def applyAll (es : List (Edit α)) (t : List α) : List α := es.foldl (fun t e => e.apply t) t

@[simp] theorem applyAll_nil (t : List α) : applyAll ([] : List (Edit α)) t = t := rfl

@[simp] theorem applyAll_cons (e : Edit α) (es : List (Edit α)) (t : List α) :
    applyAll (e :: es) t = applyAll es (e.apply t) := rfl

/-- Every edit fits the sequence at the moment it is applied. -/
def MatchesAll : List (Edit α) → List α → Prop
  | [], _ => True
  | e :: es, t => e.Matches t ∧ MatchesAll es (e.apply t)

/-- How an edit that fits changes the length. -/
theorem Edit.length_apply {e : Edit α} {t : List α} (h : e.Matches t) :
    (e.apply t).length =
      if e.isInsert then t.length + e.text.length else t.length - e.text.length := by
  obtain ⟨hstart, hremove⟩ := h
  by_cases hins : e.isInsert = true
  · simp only [apply, hins, if_true, List.length_append, List.length_take, List.length_drop]
    omega
  · have hlen := (hremove (by simpa using hins)).length_le
    rw [List.length_drop] at hlen
    simp only [apply, hins, Bool.false_eq_true, if_false, List.length_append, List.length_take,
      List.length_drop]
    omega

theorem Edit.length_text_le {e : Edit α} {t : List α} (h : e.Matches t)
    (hins : e.isInsert = false) : e.text.length ≤ t.length := by
  have hlen := (h.2 hins).length_le
  rw [List.length_drop] at hlen
  omega

/-- Edits that fit two sequences change the length of both alike. -/
theorem length_applyAll_of_matchesAll {es : List (Edit α)} {t u : List α} (ht : MatchesAll es t)
    (hu : MatchesAll es u) :
    (applyAll es t).length + u.length = (applyAll es u).length + t.length := by
  induction es generalizing t u with
  | nil => exact Nat.add_comm _ _
  | cons e es ih =>
    have hrest := ih ht.2 hu.2
    have hlt := Edit.length_apply ht.1
    have hlu := Edit.length_apply hu.1
    rw [applyAll_cons, applyAll_cons]
    by_cases hins : e.isInsert = true
    · rw [if_pos hins] at hlt hlu
      omega
    · have hfalse : e.isInsert = false := by simpa using hins
      have hle := Edit.length_text_le ht.1 hfalse
      have hle' := Edit.length_text_le hu.1 hfalse
      rw [if_neg hins] at hlt hlu
      omega

theorem matchesAll_iff {es : List (Edit α)} {t : List α} :
    MatchesAll es t ↔ ∀ before e after, es = before ++ e :: after →
      e.Matches (applyAll before t) := by
  induction es generalizing t with
  | nil => simp [MatchesAll]
  | cons e es ih =>
    rw [MatchesAll, ih]
    constructor
    · rintro ⟨he, hes⟩ before e' after heq
      cases before with
      | nil =>
        obtain ⟨rfl, -⟩ := List.cons.inj heq
        exact he
      | cons d before =>
        obtain ⟨rfl, htail⟩ := List.cons.inj heq
        exact hes before e' after htail
    · intro h
      refine ⟨h [] e es rfl, fun before e' after htail => ?_⟩
      exact h (e :: before) e' after (by rw [htail, List.cons_append])

inductive Op
  | insert (baseIx targetIx count : ℕ)
  | delete (baseIx count : ℕ)
deriving DecidableEq

/-- What the operations make of the base from position `pos` on: everything up
to an operation is copied, an insert adds its block of the target, and a delete
skips its block of the base. -/
def Op.output (a b : List α) : ℕ → List Op → List α
  | pos, [] => a.drop pos
  | pos, .insert i j c :: ops =>
    (a.drop pos).take (i - pos) ++ (b.drop j).take c ++ output a b i ops
  | pos, .delete i c :: ops => (a.drop pos).take (i - pos) ++ output a b (i + c) ops

/-- Operations sorted by base index and within range. After a delete the next
operation lies at or past the end of its range. -/
def Op.Sorted (a b : List α) : ℕ → List Op → Prop
  | _, [] => True
  | pos, .insert i j c :: ops => pos ≤ i ∧ i ≤ a.length ∧ j + c ≤ b.length ∧ Sorted a b i ops
  | pos, .delete i c :: ops => pos ≤ i ∧ i + c ≤ a.length ∧ Sorted a b (i + c) ops

def IsScript (a b : List α) (ops : List Op) : Prop :=
  Op.Sorted a b 0 ops ∧ Op.output a b 0 ops = b

/-- The script that takes the base away and puts the target in its place. -/
def replace (a b : List α) : List Op :=
  (if a.isEmpty then [] else [.delete 0 a.length]) ++
    if b.isEmpty then [] else [.insert a.length 0 b.length]

theorem isScript_replace (a b : List α) : IsScript a b (replace a b) := by
  cases a <;> cases b <;> simp [IsScript, replace, Op.Sorted, Op.output]

/-- The edits for a script, with the running offset between base coordinates
and the current sequence. The offset is an integer: it drops below zero when a
delete at the very front is longer than the prefix before it. -/
def toEdits (a b : List α) : ℤ → List Op → List (Edit α)
  | _, [] => []
  | off, .insert i j c :: ops =>
      Edit.insert (off + i).toNat ((b.drop j).take c) :: toEdits a b (off + c) ops
  | off, .delete i c :: ops =>
      Edit.remove (off + i).toNat ((a.drop i).take c) :: toEdits a b (off - c) ops

theorem drop_eq_take_append_drop (a : List α) {pos i : ℕ} (h : pos ≤ i) :
    a.drop pos = (a.drop pos).take (i - pos) ++ a.drop i := by
  have hd : a.drop i = (a.drop pos).drop (i - pos) := by
    rw [List.drop_drop, Nat.add_sub_cancel' h]
  rw [hd, List.take_append_drop]

theorem length_copied (a : List α) {pos i : ℕ} (hi : i ≤ a.length) :
    ((a.drop pos).take (i - pos)).length = i - pos := by
  rw [List.length_take, List.length_drop]
  omega

/-- The generalisation that carries the induction: `q` is the finished part and
the offset relates its length to the base position reached. -/
theorem applyAll_toEdits_from (a b : List α) (ops : List Op) (pos : ℕ) (off : ℤ) (q : List α)
    (hs : Op.Sorted a b pos ops) (hq : (q.length : ℤ) = off + pos) :
    applyAll (toEdits a b off ops) (q ++ a.drop pos) = q ++ Op.output a b pos ops ∧
      MatchesAll (toEdits a b off ops) (q ++ a.drop pos) := by
  induction ops generalizing pos off q with
  | nil => exact ⟨rfl, trivial⟩
  | cons op ops ih =>
    cases op with
    | insert i j c =>
      obtain ⟨hpos, hi, hj, hrest⟩ := hs
      let copied := (a.drop pos).take (i - pos)
      let block := (b.drop j).take c
      have hcopied : copied.length = i - pos := length_copied a hi
      have hblock : block.length = c := by
        simp only [block, List.length_take, List.length_drop]
        omega
      have hat : (off + i).toNat = (q ++ copied).length := by
        rw [List.length_append, hcopied]
        omega
      have hsplit : q ++ a.drop pos = (q ++ copied) ++ a.drop i := by
        rw [List.append_assoc, ← drop_eq_take_append_drop a hpos]
      have hoff : (((q ++ copied) ++ block).length : ℤ) = off + c + i := by
        simp only [List.length_append, hcopied, hblock]
        push_cast
        omega
      obtain ⟨happ, hmat⟩ := ih i (off + c) ((q ++ copied) ++ block) hrest hoff
      simp only [toEdits, Op.output, applyAll_cons, MatchesAll]
      rw [hsplit, hat, Edit.apply_insert_append]
      refine ⟨?_, Edit.matches_insert_append _ _ _, hmat⟩
      rw [happ]
      simp only [copied, block, List.append_assoc]
    | delete i c =>
      obtain ⟨hpos, hi, hrest⟩ := hs
      let copied := (a.drop pos).take (i - pos)
      let block := (a.drop i).take c
      have hcopied : copied.length = i - pos := length_copied a (by omega)
      have hat : (off + i).toNat = (q ++ copied).length := by
        rw [List.length_append, hcopied]
        omega
      have hsplit : q ++ a.drop pos = (q ++ copied) ++ block ++ a.drop (i + c) := by
        have hi' := drop_eq_take_append_drop a (Nat.le_add_right i c)
        rw [Nat.add_sub_cancel_left] at hi'
        rw [drop_eq_take_append_drop a hpos, hi']
        simp only [copied, block, List.append_assoc]
      have hoff : ((q ++ copied).length : ℤ) = off - c + (i + c : ℕ) := by
        simp only [List.length_append, hcopied]
        push_cast
        omega
      obtain ⟨happ, hmat⟩ := ih (i + c) (off - c) (q ++ copied) hrest hoff
      simp only [toEdits, Op.output, applyAll_cons, MatchesAll]
      rw [hsplit, hat, Edit.apply_remove_append]
      refine ⟨?_, Edit.matches_remove_append _ _ _, hmat⟩
      rw [happ]
      simp only [copied, List.append_assoc]

/-- A script from `a` to `b`, replayed at the end of a fixed prefix, rewrites
`a` into `b` there, and every edit fits the sequence it is applied to. -/
theorem applyAll_toEdits {a b : List α} {ops : List Op} (h : IsScript a b ops) (p : List α) :
    applyAll (toEdits a b p.length ops) (p ++ a) = p ++ b ∧
      MatchesAll (toEdits a b p.length ops) (p ++ a) := by
  have hf := applyAll_toEdits_from a b ops 0 p.length p h.1 (by simp)
  rw [h.2] at hf
  simpa only [List.drop_zero] using hf

end EditScript
