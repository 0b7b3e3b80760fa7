import Mathlib.Data.List.Induction
import Mathlib.Data.List.Perm.Basic
import ProvenanceTrail.Proofs.Search.Queue

/-!
# Frontiers that serve in turn

A frontier may keep its items in a sorted list (`Frontier`) or in another way, and none says in which order
they came. What it is for is said with a list that keeps only that: the items that wait, in the order in which
they were taken in. The item that is served is then the one that no other precedes and that came first among
those that tie with it (`Frontier.Next`). There is one such item, so that all ways to keep a line answer alike
(`ItemQueue.Keeps.history_eq`). The sorted list is the line, sorted by insertion (`Frontier.Sorts`).
-/

namespace ProvenanceTrail

/-- The ways in which a frontier can keep its items. -/
class ItemQueue (F : Type) where
  push : F → SearchItem → Except LayoutError F
  pop : F → Option (SearchItem × F)
  peek : F → Option SearchItem
  size : F → Nat
  isEmpty : F → Bool
  /-- the items that are kept, in no particular order -/
  items : F → List SearchItem

instance : ItemQueue Frontier :=
  ⟨Frontier.push, Frontier.pop, Frontier.peek, Frontier.size, Frontier.isEmpty, Frontier.items⟩

/-- A use of a frontier. -/
inductive FrontierCall where
  | push (item : SearchItem)
  | pop

/-- What a use gives: whether the item was taken in, or the item that is served, if any waits. -/
inductive FrontierAnswer where
  | pushed
  | refused (e : LayoutError)
  | served (item : Option SearchItem)
deriving DecidableEq, Repr

namespace FrontierCall

variable {F : Type} [ItemQueue F]

/-- The answer to a use. -/
def answer (f : F) : FrontierCall → FrontierAnswer
  | .push item =>
    match ItemQueue.push f item with
    | .ok _ => .pushed
    | .error e => .refused e
  | .pop => .served ((ItemQueue.pop f).map (·.1))

/-- The frontier after a use. An item that is refused leaves it as it is. -/
def run (f : F) : FrontierCall → F
  | .push item =>
    match ItemQueue.push f item with
    | .ok f => f
    | .error _ => f
  | .pop => ((ItemQueue.pop f).map (·.2)).getD f

end FrontierCall

/-- The uses of a frontier with their answers, first one first. -/
abbrev FrontierHistory := List (FrontierCall × FrontierAnswer)

namespace FrontierHistory

/-- The items that wait after one more use: those that were taken in and not yet served, in the order in
which they came. -/
def update (waiting : List SearchItem) : FrontierCall × FrontierAnswer → List SearchItem
  | (.push item, .pushed) => waiting ++ [item]
  | (.pop, .served (some item)) => waiting.erase item
  | _ => waiting

/-- The items that wait. -/
def waiting (h : FrontierHistory) : List SearchItem := h.foldl update []

/-- The items that were taken in. -/
def taken (h : FrontierHistory) : List SearchItem :=
  h.filterMap fun
    | (.push item, .pushed) => some item
    | _ => none

/-- The items that were served. -/
def served (h : FrontierHistory) : List SearchItem :=
  h.filterMap fun
    | (.pop, .served item) => item
    | _ => none

end FrontierHistory

namespace Frontier

/-- An item is next in a line: it strictly precedes all that came before it, and none that came after it
strictly precedes it. -/
def Next (line : List SearchItem) (item : SearchItem) : Prop :=
  ∃ earlier later, line = earlier ++ item :: later ∧
    (∀ y ∈ earlier, SearchItem.precedes item y = .ok true) ∧
      ∀ y ∈ later, SearchItem.precedes y item = .ok false

/-- One item of a line is next. -/
theorem Next.unique {line : List SearchItem} {item other : SearchItem} (h : Next line item)
    (h' : Next line other) : item = other := by
  obtain ⟨earlier, later, rfl, hearlier, hlater⟩ := h
  obtain ⟨earlier', later', hline, hearlier', hlater'⟩ := h'
  -- where the two stand apart, the later one precedes the earlier one strictly and does not
  rcases List.append_eq_append_iff.1 hline with ⟨between, rfl, hbetween⟩ | ⟨between, rfl, hbetween⟩
  · rcases List.cons_eq_append_iff.1 hbetween with ⟨rfl, heq⟩ | ⟨between, rfl, rfl⟩
    · exact (List.cons.inj heq).1.symm
    · have hbefore := hearlier' item (by simp)
      rw [hlater other (by simp)] at hbefore
      cases hbefore
  · rcases List.cons_eq_append_iff.1 hbetween with ⟨rfl, heq⟩ | ⟨between, rfl, rfl⟩
    · exact (List.cons.inj heq).1
    · have hbefore := hearlier other (by simp)
      rw [hlater' item (by simp)] at hbefore
      cases hbefore

end Frontier

/-! ## Keeping a line -/

namespace ItemQueue

open Frontier (Next)

variable {F : Type} [ItemQueue F]

/-- The frontier after some uses. -/
def after (f : F) (calls : List FrontierCall) : F := calls.foldl FrontierCall.run f

/-- Some uses with their answers. -/
def history (f : F) : List FrontierCall → FrontierHistory
  | [] => []
  | c :: calls => (c, c.answer f) :: history (c.run f) calls

/-- What a frontier does while a line of items waits. An item is taken in exactly if it carries the checks of
the frontier; one that is refused changes nothing, and the reason is how the checks differ. The next item of
the line is served, if any waits; and the frontier shows the item that it serves and the length of the
line. -/
structure ServesInTurn (f : F) (checks : List String) (line : List SearchItem) : Prop where
  pushed_iff : ∀ item, (FrontierCall.push item).answer f = .pushed ↔ item.layout = checks
  refused_iff : ∀ item e, (FrontierCall.push item).answer f = .refused e ↔
    LayoutError.between? checks item.layout = some e
  refused : ∀ item e, (FrontierCall.push item).answer f = .refused e →
    (FrontierCall.push item).run f = f
  served_none_iff : FrontierCall.pop.answer f = .served none ↔ line = []
  served_iff : ∀ item, FrontierCall.pop.answer f = .served (some item) ↔ Next line item
  peek : FrontierCall.pop.answer f = .served (peek f)
  size : size f = line.length
  isEmpty : isEmpty f = line.isEmpty
  items : (items f).Perm line

/-- A frontier holds a line if it does so in a way that its uses keep up. -/
structure Keeps (checks : List String) (Holds : F → List SearchItem → Prop) : Prop where
  push : ∀ {f line item}, Holds f line → item.layout = checks →
    ∃ g, push f item = .ok g ∧ Holds g (line ++ [item])
  push_error : ∀ {f line item e}, Holds f line → LayoutError.between? checks item.layout = some e →
    ItemQueue.push f item = .error e
  pop_nil : ∀ {f}, Holds f [] → pop f = none
  pop_cons : ∀ {f line}, Holds f line → line ≠ [] →
    ∃ item g, ItemQueue.pop f = some (item, g) ∧ Next line item ∧ Holds g (line.erase item)
  peek : ∀ {f line}, Holds f line → peek f = (ItemQueue.pop f).map (·.1)
  size : ∀ {f line}, Holds f line → size f = line.length
  isEmpty : ∀ {f line}, Holds f line → isEmpty f = line.isEmpty
  items : ∀ {f line}, Holds f line → (items f).Perm line

namespace Keeps

variable {checks : List String} {Holds : F → List SearchItem → Prop} {f : F} {line : List SearchItem}

/-- An item for other checks is refused. -/
theorem exists_push_error (h : Keeps checks Holds) (hf : Holds f line) {item : SearchItem}
    (hitem : item.layout ≠ checks) :
    ∃ e, LayoutError.between? checks item.layout = some e ∧ ItemQueue.push f item = .error e := by
  cases hbetween : LayoutError.between? checks item.layout with
  | none => exact absurd (LayoutError.between?_eq_none_iff.1 hbetween).symm hitem
  | some e => exact ⟨e, rfl, h.push_error hf hbetween⟩

/-- Every use keeps it, with the line that its answer leaves. -/
theorem run (h : Keeps checks Holds) (hf : Holds f line) (c : FrontierCall) :
    Holds (c.run f) (FrontierHistory.update line (c, c.answer f)) := by
  cases c with
  | push item =>
    by_cases hitem : item.layout = checks
    · obtain ⟨g, hpush, hg⟩ := h.push hf hitem
      simpa only [FrontierCall.run, FrontierCall.answer, hpush, FrontierHistory.update] using hg
    · obtain ⟨e, -, hpush⟩ := h.exists_push_error hf hitem
      simpa only [FrontierCall.run, FrontierCall.answer, hpush, FrontierHistory.update] using hf
  | pop =>
    rcases eq_or_ne line [] with rfl | hline
    · simpa [FrontierCall.run, FrontierCall.answer, h.pop_nil hf, FrontierHistory.update] using hf
    · obtain ⟨item, g, hpop, -, hg⟩ := h.pop_cons hf hline
      simpa [FrontierCall.run, FrontierCall.answer, hpop, FrontierHistory.update] using hg

/-- A frontier that holds a line serves it in turn. -/
theorem servesInTurn (h : Keeps checks Holds) (hf : Holds f line) : ServesInTurn f checks line where
  pushed_iff item := by
    by_cases hitem : item.layout = checks
    · obtain ⟨g, hpush, -⟩ := h.push hf hitem
      simp [FrontierCall.answer, hpush, hitem]
    · obtain ⟨e, -, hpush⟩ := h.exists_push_error hf hitem
      simp [FrontierCall.answer, hpush, hitem]
  refused_iff item e := by
    by_cases hitem : item.layout = checks
    · obtain ⟨g, hpush, -⟩ := h.push hf hitem
      simp [FrontierCall.answer, hpush, LayoutError.between?_eq_none_iff.2 hitem.symm]
    · obtain ⟨e, hbetween, hpush⟩ := h.exists_push_error hf hitem
      simp [FrontierCall.answer, hpush, hbetween]
  refused item e hanswer := by
    simp only [FrontierCall.answer, FrontierCall.run] at hanswer ⊢
    cases hpush : ItemQueue.push f item with
    | ok g => rw [hpush] at hanswer; cases hanswer
    | error e => rfl
  served_none_iff := by
    rcases eq_or_ne line [] with rfl | hline
    · simp [FrontierCall.answer, h.pop_nil hf]
    · obtain ⟨item, g, hpop, -⟩ := h.pop_cons hf hline
      simp [FrontierCall.answer, hpop, hline]
  served_iff item := by
    rcases eq_or_ne line [] with rfl | hline
    · have hnone : ¬ Next [] item := by
        rintro ⟨earlier, later, hnil, -⟩
        simp at hnil
      simp [FrontierCall.answer, h.pop_nil hf, hnone]
    · obtain ⟨first, g, hpop, hnext, -⟩ := h.pop_cons hf hline
      simp only [FrontierCall.answer, hpop, Option.map_some, FrontierAnswer.served.injEq, Option.some_inj]
      exact ⟨fun heq => heq ▸ hnext, hnext.unique⟩
  peek := by rw [h.peek hf, FrontierCall.answer]
  size := h.size hf
  isEmpty := h.isEmpty hf
  items := h.items hf

/-- Every sequence of uses keeps it. -/
theorem after (h : Keeps checks Holds) (hf : Holds f line) (calls : List FrontierCall) :
    Holds (after f calls) ((history f calls).foldl FrontierHistory.update line) := by
  induction calls generalizing f line with
  | nil => exact hf
  | cons c calls ih => exact ih (h.run hf c)

/-- What waits and what comes in is what is served and what still waits. -/
theorem conserved (h : Keeps checks Holds) (hf : Holds f line) (calls : List FrontierCall) :
    (line ++ (history f calls).taken).Perm
      ((history f calls).served ++ (history f calls).foldl FrontierHistory.update line) := by
  induction calls generalizing f line with
  | nil => simp [history, FrontierHistory.taken, FrontierHistory.served]
  | cons c calls ih =>
    have hrest := ih (h.run hf c)
    rw [history, List.foldl_cons]
    cases c with
    | push item =>
      cases hpush : ItemQueue.push f item with
      | error e =>
        simpa [FrontierCall.answer, hpush, FrontierHistory.update, FrontierHistory.taken,
          FrontierHistory.served] using hrest
      | ok g =>
        simpa [FrontierCall.answer, hpush, FrontierHistory.update, FrontierHistory.taken,
          FrontierHistory.served] using hrest
    | pop =>
      rcases eq_or_ne line [] with rfl | hline
      · simpa [FrontierCall.answer, h.pop_nil hf, FrontierHistory.update, FrontierHistory.taken,
          FrontierHistory.served] using hrest
      · obtain ⟨item, g, hpop, ⟨earlier, later, hsplit, -⟩, -⟩ := h.pop_cons hf hline
        have hmem : item ∈ line := by rw [hsplit]; simp
        -- what is served was waiting, so it can be taken to the front
        have hfront := (List.perm_cons_erase hmem).append_right
          ((history (FrontierCall.pop.run f) calls).taken)
        refine hfront.trans ?_
        simpa [FrontierCall.answer, hpop, FrontierHistory.update, FrontierHistory.taken,
          FrontierHistory.served] using hrest

/-- In whatever way a line is kept, the answer to a use is the same. -/
theorem answer_eq {G : Type} [ItemQueue G] {HoldsG : G → List SearchItem → Prop} {g : G}
    (h : Keeps checks Holds) (h' : Keeps checks HoldsG) (hf : Holds f line) (hg : HoldsG g line)
    (c : FrontierCall) : c.answer f = c.answer g := by
  cases c with
  | push item =>
    by_cases hitem : item.layout = checks
    · obtain ⟨_, hpush, -⟩ := h.push hf hitem
      obtain ⟨_, hpush', -⟩ := h'.push hg hitem
      simp [FrontierCall.answer, hpush, hpush']
    · obtain ⟨e, hbetween, hpush⟩ := h.exists_push_error hf hitem
      simp [FrontierCall.answer, hpush, h'.push_error hg hbetween]
  | pop =>
    rcases eq_or_ne line [] with rfl | hline
    · simp [FrontierCall.answer, h.pop_nil hf, h'.pop_nil hg]
    · obtain ⟨item, _, hpop, hnext, -⟩ := h.pop_cons hf hline
      obtain ⟨item', _, hpop', hnext', -⟩ := h'.pop_cons hg hline
      simp [FrontierCall.answer, hpop, hpop', hnext.unique hnext']

/-- In whatever way a line is kept, the answers to a sequence of uses are the same. -/
theorem history_eq {G : Type} [ItemQueue G] {HoldsG : G → List SearchItem → Prop} {g : G}
    (h : Keeps checks Holds) (h' : Keeps checks HoldsG) (hf : Holds f line) (hg : HoldsG g line)
    (calls : List FrontierCall) : history f calls = history g calls := by
  induction calls generalizing f g line with
  | nil => rfl
  | cons c calls ih =>
    have hanswer := h.answer_eq h' hf hg c
    have hg' := h'.run hg c
    rw [← hanswer] at hg'
    rw [history, history, hanswer, ih (h.run hf c) hg']

end Keeps

end ItemQueue

namespace Frontier

open SearchItem (AtLeast order)

/-! ## Sorting by insertion -/

section Sorting

variable {checks : List String} {item : SearchItem} {line rest : List SearchItem}

/-- The last item of a line is inserted last. -/
theorem insertAll_concat (line : List SearchItem) (item : SearchItem) :
    insertAll (line ++ [item]) [] = insert item (insertAll line []) := by
  rw [insertAll, List.foldl_append]
  rfl

/-- Inserting a line keeps its items. -/
theorem insertAll_perm (line : List SearchItem) : (insertAll line []).Perm line := by
  induction line using List.reverseRecOn with
  | nil => exact .refl _
  | append_singleton line item ih =>
    rw [insertAll_concat]
    exact (insert_perm _ _).trans ((ih.cons item).trans (List.perm_append_singleton item line).symm)

/-- The first of the sorted items is next in the line, and the others are the line without it, sorted. -/
theorem exists_of_insertAll_eq_cons (hline : ∀ y ∈ line, y.layout = checks)
    (h : insertAll line [] = item :: rest) :
    ∃ earlier later, line = earlier ++ item :: later ∧
      (∀ y ∈ earlier, order item y = .lt) ∧ (∀ y ∈ later, item.AtLeast y) ∧
        insertAll (earlier ++ later) [] = rest := by
  -- on the line: the last one that came is the last one that was inserted
  induction line using List.reverseRecOn generalizing item rest with
  | nil => cases h
  | append_singleton line last ih =>
    have hinit : ∀ y ∈ line, y.layout = checks := fun y hy => hline y (List.mem_append_left _ hy)
    have hlast : last.layout = checks := hline last (by simp)
    rw [insertAll_concat] at h
    cases hsorted : insertAll line [] with
    | nil =>
      have hnil : line = [] := (hsorted ▸ insertAll_perm line).symm.eq_nil
      subst hnil
      rw [hsorted] at h
      obtain ⟨rfl, rfl⟩ := List.cons.inj h
      exact ⟨[], [], rfl, by simp, by simp, rfl⟩
    | cons first others =>
      obtain ⟨earlier, later, rfl, hearlier, hlater, hothers⟩ := ih hinit hsorted
      have hfirst : first.layout = checks := hinit first (by simp)
      rw [hsorted, insert] at h
      split at h
      · rename_i hlt
        obtain ⟨rfl, rfl⟩ := List.cons.inj h
        refine ⟨earlier ++ first :: later, [], rfl, fun y hy => ?_, by simp, by simpa using hsorted⟩
        have hy' : first.AtLeast y := by
          rcases List.mem_append.1 hy with hy | hy
          · exact SearchItem.atLeast_of_order_lt (hearlier y hy)
          · rcases List.mem_cons.1 hy with rfl | hy
            · exact .refl _
            · exact hlater y hy
        exact SearchItem.order_lt_of_lt_of_atLeast (hlast.trans hfirst.symm)
          (hfirst.trans (hinit y hy).symm) hlt hy'
      · rename_i hlt
        obtain ⟨rfl, rfl⟩ := List.cons.inj h
        refine ⟨earlier, later ++ [last], by simp, hearlier, fun y hy => ?_, ?_⟩
        · rcases List.mem_append.1 hy with hy | hy
          · exact hlater y hy
          · obtain rfl := List.mem_singleton.1 hy
            exact SearchItem.atLeast_iff_order_ne_lt.2 hlt
        · rw [← List.append_assoc, insertAll_concat, hothers]

end Sorting

/-! ## The sorted list -/

/-- A frontier for some checks, while a line of items waits: it holds the line, sorted. -/
structure Sorts (checks : List String) (f : Frontier) (line : List SearchItem) : Prop where
  checks_eq : f.checks = checks
  items : f.items = insertAll line []
  layout : ∀ y ∈ line, y.layout = checks

namespace Sorts

variable {f : Frontier} {checks : List String} {line : List SearchItem} {item : SearchItem}

/-- The empty frontier sorts the empty line. -/
theorem empty (checks : List String) : Sorts checks (Frontier.empty checks) [] :=
  ⟨rfl, rfl, by simp⟩

/-- The items of the frontier are those of the line. -/
theorem perm (h : Sorts checks f line) : f.items.Perm line := h.items ▸ insertAll_perm line

/-- An item that is taken in goes to the end of the line. -/
theorem push (h : Sorts checks f line) (hitem : item.layout = checks) :
    f.push item = .ok { f with items := insert item f.items } ∧
      Sorts checks { f with items := insert item f.items } (line ++ [item]) := by
  refine ⟨push_eq_ok (hitem.trans h.checks_eq.symm), h.checks_eq, ?_, fun y hy => ?_⟩
  · rw [insertAll_concat, ← h.items]
  · rcases List.mem_append.1 hy with hy | hy
    · exact h.layout y hy
    · rw [List.mem_singleton.1 hy, hitem]

/-- The item that is served is next in the line, and leaves it. -/
theorem pop (h : Sorts checks f line) {rest : List SearchItem} (hitems : f.items = item :: rest) :
    Next line item ∧ Sorts checks { f with items := rest } (line.erase item) := by
  obtain ⟨earlier, later, rfl, hearlier, hlater, rfl⟩ :=
    exists_of_insertAll_eq_cons h.layout (h.items.symm.trans hitems)
  have hitem : item.layout = checks := h.layout item (by simp)
  have hlayout (y : SearchItem) (hy : y ∈ earlier ++ item :: later) : item.layout = y.layout :=
    hitem.trans (h.layout y hy).symm
  refine ⟨⟨earlier, later, rfl, fun y hy => ?_, fun y hy => ?_⟩, h.checks_eq, ?_, ?_⟩
  · exact (SearchItem.precedes_eq_ok_true_iff (hlayout y (by simp [hy]))).2 (hearlier y hy)
  · exact (SearchItem.precedes_eq_ok_false_iff (hlayout y (by simp [hy]))).2 (hlater y hy)
  · -- the item does not precede itself, so it is not among those before it
    have hnot : item ∉ earlier := fun hmem =>
      SearchItem.atLeast_iff_order_ne_lt.1 (.refl item) (hearlier item hmem)
    rw [List.erase_append_right _ hnot, List.erase_cons_head]
  · exact fun y hy => h.layout y (List.mem_of_mem_erase hy)

/-- A sorted list keeps a line. -/
theorem keeps (checks : List String) : ItemQueue.Keeps checks (Sorts checks) where
  push h hitem := ⟨_, h.push hitem⟩
  push_error h hbetween := by
    simp only [ItemQueue.push, Frontier.push, h.checks_eq, hbetween]
  pop_nil {f} h := by
    have hnil : f.items = [] := h.perm.eq_nil
    simp only [ItemQueue.pop, Frontier.pop, hnil]
  pop_cons {f line} h hline := by
    cases hitems : f.items with
    | nil => exact absurd (hitems ▸ h.perm).nil_eq.symm hline
    | cons item rest => exact ⟨item, _, by simp only [ItemQueue.pop, Frontier.pop, hitems], h.pop hitems⟩
  peek {f _} _ := by cases hitems : f.items <;> simp [ItemQueue.pop, Frontier.pop, ItemQueue.peek, peek, hitems]
  size h := h.perm.length_eq
  isEmpty h := h.perm.isEmpty_eq
  items h := h.perm

end Sorts

end Frontier

/-! ## Comparing -/

/-- Items for some checks are totally preordered: any two can be compared, the other way round they compare
the other way round, and coming no later than is transitive and total. An item on a trusted path comes
before one that is not, whatever the checks say. -/
structure SearchItem.TotallyPreordered (checks : List String) : Prop where
  compares : ∀ a b : SearchItem, a.layout = checks → b.layout = checks → ∃ o, a.compare b = .ok o
  swap : ∀ (a b : SearchItem) (o : Ordering), a.layout = checks → b.layout = checks →
    a.compare b = .ok o → b.compare a = .ok o.swap
  trans : ∀ a b c : SearchItem, a.layout = checks → b.layout = checks → c.layout = checks →
    a.compare b ≠ .ok .gt → b.compare c ≠ .ok .gt → a.compare c ≠ .ok .gt
  total : ∀ a b : SearchItem, a.layout = checks → b.layout = checks →
    a.compare b ≠ .ok .gt ∨ b.compare a ≠ .ok .gt
  integrity_first : ∀ a b : SearchItem, a.layout = checks → b.layout = checks →
    a.pathIntegrity = true → b.pathIntegrity = false → a.compare b = .ok .lt

/-- The items of one layout are totally preordered. -/
theorem SearchItem.totallyPreordered (checks : List String) : TotallyPreordered checks where
  compares a b ha hb := ⟨order a b, compare_eq_ok (ha.trans hb.symm)⟩
  swap a b o ha hb h := by
    rw [compare_eq_ok (ha.trans hb.symm)] at h
    rw [compare_eq_ok (hb.trans ha.symm), ← order_swap a b, Except.ok.inj h]
  trans a b c ha hb hc h₁ h₂ := by
    rw [compare_eq_ok (ha.trans hb.symm), ne_eq, Except.ok.injEq] at h₁
    rw [compare_eq_ok (hb.trans hc.symm), ne_eq, Except.ok.injEq] at h₂
    rw [compare_eq_ok (ha.trans hc.symm), ne_eq, Except.ok.injEq]
    exact AtLeast.trans (ha.trans hb.symm) (hb.trans hc.symm) h₁ h₂
  total a b ha hb := by
    rw [compare_eq_ok (ha.trans hb.symm), compare_eq_ok (hb.trans ha.symm), ← order_swap a b]
    cases order a b <;> simp [Ordering.swap]
  integrity_first a b ha hb h₁ h₂ := by
    rw [compare_eq_ok (ha.trans hb.symm)]
    simp [order, rank, compareRanks, h₁, h₂]

end ProvenanceTrail
