import ProvenanceTrail.Proofs.Search.Schedule

/-!
# Ties

Items that tie wait in the order in which they were last put into the frontier. That is the order of
their discovery, except for items that were popped while a visit under way outranked them: an item that
goes back is put behind its ties like a new one. So a claim may overtake an item that ties with the
claimed one and was discovered before it, and does so exactly if such an item was put back after the
claimed one had been put in.

The frontier itself keeps no record of this. `Line` follows a run beside the session and gives every
waiting item a ticket, with the time of its discovery and the time when it was last put in.
-/

namespace ProvenanceTrail

open SearchItem (AtLeast)

variable {f : Federation} {p : SearchPlan}

/-- An item that waits, with the number of its discovery and the number under which it was last put into
the frontier. -/
structure Ticket where
  item : SearchItem
  arrival : Nat
  seq : Nat

namespace Ticket

/-- Puts a ticket before the first one whose item its own item precedes. -/
def insert (t : Ticket) : List Ticket → List Ticket
  | [] => [t]
  | u :: rest => if SearchItem.order t.item u.item = .lt then t :: u :: rest else u :: insert t rest

/-- Inserting a ticket inserts its item. -/
theorem map_item_insert (t : Ticket) (ts : List Ticket) :
    (insert t ts).map item = Frontier.insert t.item (ts.map item) := by
  induction ts with
  | nil => rfl
  | cons u rest ih =>
    simp only [insert, List.map_cons, Frontier.insert]
    split
    · rfl
    · rw [List.map_cons, ih]

/-- Inserting adds just the one ticket. -/
theorem mem_insert {t u : Ticket} {ts : List Ticket} : u ∈ insert t ts ↔ u = t ∨ u ∈ ts := by
  induction ts with
  | nil => simp [insert]
  | cons w rest ih =>
    unfold insert
    split
    · exact List.mem_cons
    · rw [List.mem_cons, ih, List.mem_cons]
      tauto

/-- A ticket is served before another one: its item is at least as credible, and if they tie it was put
in earlier. -/
def Before (t u : Ticket) : Prop := t.item.AtLeast u.item ∧ (u.item.AtLeast t.item → t.seq < u.seq)

/-- Tickets in the order in which they are served. -/
def Ordered (ts : List Ticket) : Prop := ts.Pairwise Before

/-- A ticket with the last number comes in its place. -/
theorem ordered_insert {checks : List String} {t : Ticket} {ts : List Ticket}
    (ht : t.item.layout = checks) (hts : ∀ u ∈ ts, u.item.layout = checks)
    (hlast : ∀ u ∈ ts, u.seq < t.seq) (h : Ordered ts) : Ordered (insert t ts) := by
  induction ts with
  | nil => exact List.pairwise_singleton _ _
  | cons u rest ih =>
    obtain ⟨hu, hrest⟩ := List.pairwise_cons.1 h
    have hlayout : u.item.layout = checks := hts u (by simp)
    unfold insert
    split
    · -- `t` strictly precedes `u` and with it all that `u` comes before, so it ties with none of them
      rename_i hlt
      have hbefore : t.item.AtLeast u.item := SearchItem.atLeast_of_order_lt hlt
      have hstrict : ¬u.item.AtLeast t.item := fun hle => SearchItem.atLeast_iff_order_ne_lt.1 hle hlt
      refine List.pairwise_cons.2 ⟨?_, h⟩
      intro w hw
      rcases List.mem_cons.1 hw with rfl | hw
      · exact ⟨hbefore, fun hle => absurd hle hstrict⟩
      · have hwlayout : w.item.layout = checks := hts w (by simp [hw])
        refine ⟨hbefore.trans (ht.trans hlayout.symm) (hlayout.trans hwlayout.symm) (hu w hw).1, ?_⟩
        intro hle
        exact absurd ((hu w hw).1.trans (hlayout.trans hwlayout.symm) (hwlayout.trans ht.symm) hle)
          hstrict
    · -- `t` goes behind `u`, also if they tie, and has the greater number
      rename_i hlt
      refine List.pairwise_cons.2 ⟨?_, ih (fun w hw => hts w (by simp [hw]))
        (fun w hw => hlast w (by simp [hw])) hrest⟩
      intro w hw
      rcases mem_insert.1 hw with rfl | hw
      · exact ⟨SearchItem.atLeast_iff_order_ne_lt.2 hlt, fun _ => hlast u (by simp)⟩
      · exact hu w hw

end Ticket

/-! ## The line -/

/-- The tickets that wait, and the number for the next one. -/
structure Line where
  waiting : List Ticket
  next : Nat

namespace Line

/-- A new item gets the next number, as its arrival and for its place. -/
def enter (l : Line) (item : SearchItem) : Line :=
  ⟨Ticket.insert ⟨item, l.next, l.next⟩ l.waiting, l.next + 1⟩

/-- New items, one after the other. -/
def enterAll (l : Line) (items : List SearchItem) : Line := items.foldl enter l

/-- A ticket that goes back gets the next number for its place, and keeps its arrival. -/
def putBack (l : Line) : List Ticket → Line
  | [] => l
  | t :: rest => ⟨Ticket.insert { t with seq := l.next } rest, l.next + 1⟩

/-- The line after an event. -/
def advance (l : Line) : Event → Line
  | .claimed passed _ => { l with waiting := l.waiting.drop (passed + 1) }
  | .returned passed _ => l.putBack (l.waiting.drop passed)
  | .exhausted => { l with waiting := [] }
  | .ended _ _ _ admitted => l.enterAll admitted
  | .followed _ _ | .examined _ _ | .elsewhere => l

/-- The line after a run from a session. -/
def after (s : Session) (es : List Event) : Line :=
  es.foldl advance (enterAll ⟨[], 0⟩ s.frontier.items)

/-- One more event advances the line. -/
@[simp] theorem after_concat (s : Session) (es : List Event) (e : Event) :
    after s (es ++ [e]) = (after s es).advance e := by
  simp [after]

/-- Items enter one after the other. -/
theorem enterAll_cons (l : Line) (item : SearchItem) (items : List SearchItem) :
    l.enterAll (item :: items) = (l.enter item).enterAll items := rfl

/-- Items that enter are inserted among those that wait. -/
theorem map_item_enterAll (l : Line) (items : List SearchItem) :
    (l.enterAll items).waiting.map Ticket.item =
      Frontier.insertAll items (l.waiting.map Ticket.item) := by
  induction items generalizing l with
  | nil => rfl
  | cons item rest ih =>
    rw [enterAll_cons, ih, enter, Ticket.map_item_insert, Frontier.insertAll_cons]

/-- A ticket that is new to the line stands under the number of its arrival. -/
theorem mem_enterAll {l : Line} {items : List SearchItem} {t : Ticket}
    (ht : t ∈ (l.enterAll items).waiting) : t ∈ l.waiting ∨ t.arrival = t.seq := by
  induction items generalizing l with
  | nil => exact .inl ht
  | cons item rest ih =>
    rcases ih (l := l.enter item) ht with ht | ht
    · rcases Ticket.mem_insert.1 ht with rfl | ht
      · exact .inr rfl
      · exact .inl ht
    · exact .inr ht

/-- The tickets stand in the order in which they are served, under numbers that were given out at their
arrival or later. -/
structure Numbered (p : SearchPlan) (l : Line) : Prop where
  layout : ∀ t ∈ l.waiting, t.item.layout = p.layout
  ordered : Ticket.Ordered l.waiting
  arrival : ∀ t ∈ l.waiting, t.arrival ≤ t.seq
  given : ∀ t ∈ l.waiting, t.seq < l.next

namespace Numbered

variable {l : Line}

/-- Some tickets may leave. -/
theorem sublist (h : l.Numbered p) {ts : List Ticket} (hsub : ts.Sublist l.waiting) :
    Numbered p { l with waiting := ts } :=
  ⟨fun t ht => h.layout t (hsub.subset ht), h.ordered.sublist hsub,
    fun t ht => h.arrival t (hsub.subset ht), fun t ht => h.given t (hsub.subset ht)⟩

/-- A ticket may be put in under the next number. -/
theorem insert (h : l.Numbered p) {t : Ticket} (hlayout : t.item.layout = p.layout)
    (harrival : t.arrival ≤ t.seq) (hseq : t.seq = l.next) :
    Numbered p ⟨Ticket.insert t l.waiting, l.next + 1⟩ := by
  have hlast : ∀ u ∈ l.waiting, u.seq < t.seq := by
    rw [hseq]
    exact h.given
  refine ⟨?_, Ticket.ordered_insert hlayout h.layout hlast h.ordered, ?_, ?_⟩
  · intro u hu
    rcases Ticket.mem_insert.1 hu with rfl | hu
    · exact hlayout
    · exact h.layout u hu
  · intro u hu
    rcases Ticket.mem_insert.1 hu with rfl | hu
    · exact harrival
    · exact h.arrival u hu
  · intro u hu
    rcases Ticket.mem_insert.1 hu with rfl | hu
    · exact Nat.lt_succ_of_le (Nat.le_of_eq hseq)
    · exact Nat.lt_succ_of_lt (h.given u hu)

/-- The line stays numbered while items enter. -/
theorem enterAll (h : l.Numbered p) {items : List SearchItem}
    (hitems : ∀ x ∈ items, x.layout = p.layout) : (l.enterAll items).Numbered p := by
  induction items generalizing l with
  | nil => exact h
  | cons item rest ih =>
    rw [enterAll_cons]
    refine ih ?_ fun x hx => hitems x (by simp [hx])
    exact h.insert (t := ⟨item, l.next, l.next⟩) (hitems item (by simp)) (Nat.le_refl _) rfl

/-- The line stays numbered when some items are put back. -/
theorem putBack (h : l.Numbered p) {ts : List Ticket} (hsub : ts.Sublist l.waiting) :
    (l.putBack ts).Numbered p := by
  cases ts with
  | nil => exact h
  | cons t rest =>
    have ht : t ∈ l.waiting := hsub.subset List.mem_cons_self
    refine (h.sublist ((List.sublist_cons_self t rest).trans hsub)).insert
      (t := { t with seq := l.next }) (h.layout t ht) ?_ rfl
    exact Nat.le_of_lt (Nat.lt_of_le_of_lt (h.arrival t ht) (h.given t ht))

end Numbered

end Line

/-- A ticket has its number from being put back in the course of a run, after another number was given. -/
def Ticket.PutBackAfter (s : Session) (es : List Event) (u : Ticket) (seq : Nat) : Prop :=
  ∃ es₁ passed es₂, es = es₁ ++ .returned passed u.item :: es₂ ∧ u.seq = (Line.after s es₁).next ∧
    seq < u.seq

/-- A ticket put back stays so with one more event. -/
theorem Ticket.PutBackAfter.concat {s : Session} {es : List Event} {u : Ticket} {seq : Nat}
    (h : u.PutBackAfter s es seq) (e : Event) : u.PutBackAfter s (es ++ [e]) seq := by
  obtain ⟨es₁, passed, es₂, rfl, hnext, hlt⟩ := h
  exact ⟨es₁, passed, es₂ ++ [e], by simp, hnext, hlt⟩

/-! ## Line and frontier -/

/-- The line holds what the frontier holds, in the same order, and a ticket that stands under another
number than that of its arrival was put back. -/
structure SearchState.Lined (p : SearchPlan) (s : Session) (es : List Event) (st : SearchState) :
    Prop where
  items : (Line.after s es).waiting.map Ticket.item = st.session.frontier.items
  numbered : (Line.after s es).Numbered p
  moved : ∀ u ∈ (Line.after s es).waiting, ∀ n < u.seq, u.arrival < u.seq → u.PutBackAfter s es n

namespace SearchState.Lined

variable {s : Session} {st st' : SearchState} {es : List Event} {e : Event}

/-- The order of the tickets stays when some of them leave. -/
theorem of_sublist (h : st.Lined p s es) {ts : List Ticket}
    (hline : (Line.after s es).advance e = { Line.after s es with waiting := ts })
    (hsub : ts.Sublist (Line.after s es).waiting)
    (hitems : ts.map Ticket.item = st'.session.frontier.items) : st'.Lined p s (es ++ [e]) := by
  refine ⟨?_, ?_, ?_⟩
  · rw [Line.after_concat, hline]
    exact hitems
  · rw [Line.after_concat, hline]
    exact h.numbered.sublist hsub
  · intro u hu n hn harrival
    rw [Line.after_concat, hline] at hu
    exact (h.moved u (hsub.subset hu) n hn harrival).concat e

/-- Every change that leaves the frontier alone leaves the line alone. -/
theorem of_frontier_eq (h : st.Lined p s es) (hline : (Line.after s es).advance e = Line.after s es)
    (hfrontier : st'.session.frontier = st.session.frontier) : st'.Lined p s (es ++ [e]) :=
  h.of_sublist hline (.refl _) (hfrontier ▸ h.items)

/-- Every change keeps line and frontier together. -/
theorem change (h : st.Lined p s es) (hlaid : st.Laid f p) (hchange : Change f p st e st') :
    st'.Lined p s (es ++ [e]) := by
  cases hchange with
  | @claimed passed rest t item passes front free top within =>
    refine h.of_sublist rfl (List.drop_sublist _ _) ?_
    rw [List.map_drop, h.items, passes.items_eq, front]
    simp [Session.claim, Session.withItems]
  -- only an item that is put back changes its place: all before it are gone
  | @returned passed rest t item passes front free outranked =>
    have hdrop : ((Line.after s es).waiting.drop passed.length).map Ticket.item = item :: rest := by
      rw [List.map_drop, h.items, passes.items_eq, front, List.drop_left]
    obtain ⟨ticket, others, hwaiting, rfl, rfl⟩ := List.map_eq_cons_iff.1 hdrop
    have hsub : (ticket :: others).Sublist (Line.after s es).waiting := by
      rw [← hwaiting]
      exact List.drop_sublist _ _
    have hline : Line.after s (es ++ [.returned passed.length ticket.item]) =
        (Line.after s es).putBack (ticket :: others) := by
      rw [Line.after_concat, Line.advance, hwaiting]
    refine ⟨?_, ?_, ?_⟩
    · rw [hline]
      exact Ticket.map_item_insert _ others
    · rw [hline]
      exact h.numbered.putBack hsub
    · intro u hu n hn harrival
      rw [hline] at hu
      rcases Ticket.mem_insert.1 hu with rfl | hu
      · exact ⟨es, passed.length, [], rfl, rfl, hn⟩
      · exact (h.moved u (hsub.subset (List.mem_cons_of_mem _ hu)) n hn harrival).concat _
  | exhausted passes empty =>
    exact h.of_sublist rfl (List.nil_sublist _) empty.symm
  | followed running result => exact h.of_frontier_eq rfl (followReference_frame result).1
  | examined running => exact h.of_frontier_eq rfl rfl
  -- what a visit has discovered joins the end of the line
  | @ended before after item version outcome running =>
    have hended := Change.ended (f := f) (p := p) running
    refine ⟨?_, ?_, ?_⟩
    · rw [Line.after_concat, Line.advance, Line.map_item_enterAll, h.items]
      exact (congrArg Frontier.items (hlaid.complete_frontier running)).symm
    · rw [Line.after_concat, Line.advance]
      refine h.numbered.enterAll fun x hx => ?_
      obtain ⟨y, hy, hlayout, -⟩ := hlaid.discovered_spec hended (List.mem_of_mem_filter hx)
      exact hlayout.trans (hlaid.layout hy)
    · intro u hu n hn harrival
      rw [Line.after_concat] at hu
      rcases Line.mem_enterAll hu with hu | hu
      · exact (h.moved u hu n hn harrival).concat _
      · exact absurd hu (Nat.ne_of_lt harrival)
  | elsewhere call => exact h.of_frontier_eq rfl rfl

end SearchState.Lined

/-! ## Claims -/

/-- A claim is in turn if no ticket that ties with the claimed one, leads to a free bundle and stays waiting
has arrived before it. -/
def Line.InTurn (l : Line) (s : Session) : Event → Prop
  | .claimed n _ =>
    ∀ t ∈ l.waiting[n]?, ∀ u ∈ l.waiting.drop (n + 1),
      SearchItem.compare u.item t.item = .ok .eq → s.isClaimed u.item.bundleId = false →
        ¬u.arrival < t.arrival
  | _ => True

instance (l : Line) (s : Session) (e : Event) : Decidable (l.InTurn s e) := by
  cases e <;> unfold Line.InTurn <;> infer_instance

/-- A claim takes the ticket at its position, and leaves those behind it waiting. -/
theorem SearchState.Lined.exists_claimed {s : Session} {st st' : SearchState} {es : List Event}
    {n : Nat} {y : SearchItem} (h : st.Lined p s es) (hchange : Change f p st (.claimed n y) st') :
    ∃ t others, (Line.after s es).waiting[n]? = some t ∧
      (Line.after s es).waiting.drop (n + 1) = others ∧ t.item = y ∧
      (t :: others).Sublist (Line.after s es).waiting := by
  cases hchange with
  | @claimed passed rest u item passes front free top within =>
    have hdrop : ((Line.after s es).waiting.drop passed.length).map Ticket.item = y :: rest := by
      rw [List.map_drop, h.items, passes.items_eq, front, List.drop_left]
    obtain ⟨t, others, hwaiting, hitem, -⟩ := List.map_eq_cons_iff.1 hdrop
    refine ⟨t, others, ?_, ?_, hitem, ?_⟩
    · rw [← List.head?_drop, hwaiting, List.head?_cons]
    · rw [← List.tail_drop, hwaiting, List.tail_cons]
    · rw [← hwaiting]
      exact List.drop_sublist _ _

namespace Engine

variable {r : SearchRequest} {s : Session} {v : Verifier} {es : List Event} {st st' : SearchState}

/-- The items of a search wait in the line of its events. -/
theorem lined_of_prepare (hprepare : prepare f r = .ok (p, s))
    (hrun : Run f p (.initial s v) es st) : st.Lined p s es := by
  refine hrun.induct (motive := fun es st => st.Lined p s es) (laid_of_prepare hprepare) ?_ ?_
  · have hlaid := laid_of_prepare (v := v) hprepare
    obtain ⟨entry, -, rfl⟩ := prepare_eq_ok hprepare
    refine ⟨rfl, ?_, ?_⟩
    · have hempty : Line.Numbered p ⟨[], 0⟩ := ⟨by simp, .nil, by simp, by simp⟩
      exact hempty.enterAll hlaid.waiting
    · intro u hu n hn harrival
      rcases Line.mem_enterAll hu with hu | hu
      · cases hu
      · exact absurd hu (Nat.ne_of_lt harrival)
  · exact fun es st e st' hlaid ih hchange => ih.change hlaid hchange

/-- **Ties are claimed in the order in which they were last put into the frontier.** A claim is in turn,
with respect to the order of discovery, exactly if no ticket that ties with the claimed one, has arrived
before it, leads to a free bundle and stays waiting was put back after the claimed one was put in. -/
theorem ties_in_turn_iff {m : Move} {n : Nat} {y : SearchItem} (hprepare : prepare f r = .ok (p, s))
    (hrun : Run f p (.initial s v) es st) (hclaim : st.move f p m = some (.claimed n y, st')) :
    (Line.after s es).waiting.map Ticket.item = st.session.frontier.items ∧
      ∃ t, (Line.after s es).waiting[n]? = some t ∧ t.item = y ∧
        (∀ u ∈ (Line.after s es).waiting.drop (n + 1), SearchItem.compare u.item y = .ok .eq →
          t.seq < u.seq) ∧
        ((Line.after s es).InTurn st.session (.claimed n y) ↔
          ∀ u ∈ (Line.after s es).waiting.drop (n + 1), SearchItem.compare u.item y = .ok .eq →
            st.session.isClaimed u.item.bundleId = false → u.arrival < t.arrival →
              ¬u.PutBackAfter s es t.seq) := by
  have hlaid := hrun.laid (laid_of_prepare hprepare)
  have hlined := lined_of_prepare hprepare hrun
  obtain ⟨t, others, ht, hothers, rfl, hsub⟩ :=
    hlined.exists_claimed (SearchState.move_change hlaid.fits hclaim)
  rw [hothers]
  have hbefore := (List.pairwise_cons.1 (hlined.numbered.ordered.sublist hsub)).1
  have hseq (u : Ticket) (hu : u ∈ others) (htie : SearchItem.compare u.item t.item = .ok .eq) :
      t.seq < u.seq := by
    have hlayout : u.item.layout = t.item.layout :=
      (hlined.numbered.layout u (hsub.subset (List.mem_cons_of_mem _ hu))).trans
        (hlined.numbered.layout t (hsub.subset List.mem_cons_self)).symm
    rw [SearchItem.compare_eq_ok hlayout] at htie
    exact (hbefore u hu).2 (SearchItem.order_eq_iff.1 (Except.ok.inj htie)).1
  refine ⟨hlined.items, t, ht, rfl, hseq, ?_⟩
  rw [Line.InTurn, hothers, ht]
  constructor
  · intro hturn u hu htie hfree harrival
    exact absurd harrival (hturn t rfl u hu htie hfree)
  · intro hback t' ht' u hu htie hfree harrival
    obtain rfl : t = t' := Option.some.inj ht'
    -- the other one has arrived before, so only by being put back can it stand behind
    have hlt : t.seq < u.seq := hseq u hu htie
    have ht : t.arrival ≤ t.seq := hlined.numbered.arrival t (hsub.subset List.mem_cons_self)
    have hmoved : u.arrival < u.seq := by omega
    exact hback u hu htie hfree harrival
      (hlined.moved u (hsub.subset (List.mem_cons_of_mem _ hu)) t.seq hlt hmoved)

/-- In the small federation `X` arrives before `Y`, goes back while `C` is being visited, and `Y` is claimed
while `X` waits. -/
theorem exists_overtaking_sample :
    ∃ es st st' n y, Run Sample.federation Sample.plan (.initial Sample.session Sample.verifier) es st ∧
      st.move Sample.federation Sample.plan .claim = some (.claimed n y, st') ∧
      y.bundleId = Sample.document "Y" ∧
      ¬(Line.after Sample.session es).InTurn st.session (.claimed n y) := by
  have hplay : (SearchState.play Sample.federation Sample.plan
      (.initial Sample.session Sample.verifier) (Sample.opening ++ [.claim] ++ Sample.visit 0)).any
        (fun r =>
          ((r.2.claim Sample.federation).1.claimed?.any fun y => y.bundleId == Sample.document "Y") &&
            decide ¬(Line.after Sample.session r.1).InTurn r.2.session
              (r.2.claim Sample.federation).1) = true := by
    decide +kernel
  obtain ⟨⟨es, st⟩, hst, hplayed⟩ := (Option.any_eq_true _ _).1 hplay
  obtain ⟨hclaimed, hovertakes⟩ := Bool.and_eq_true_iff.1 hplayed
  obtain ⟨y, hy, hbundle⟩ := (Option.any_eq_true _ _).1 hclaimed
  obtain ⟨n, hevent⟩ := Event.claimed?_eq_some_iff.1 hy
  refine ⟨es, st, (st.claim Sample.federation).2, n, y, Run.of_play hst, ?_, eq_of_beq hbundle, ?_⟩
  · rw [SearchState.move, ← hevent]
  · rw [← hevent]
    exact of_decide_eq_true hovertakes

/-- When `Y` is claimed, every tie that stays waiting was put into the frontier after it, `X` too. -/
theorem sample_ties_in_turn_iff :
    ∃ es st st' n y t, Run Sample.federation Sample.plan (.initial Sample.session Sample.verifier) es st ∧
      st.move Sample.federation Sample.plan .claim = some (.claimed n y, st') ∧
      y.bundleId = Sample.document "Y" ∧ t ∈ (Line.after Sample.session es).waiting ∧ t.item = y ∧
      ∀ u ∈ (Line.after Sample.session es).waiting.drop (n + 1),
        SearchItem.compare u.item y = .ok .eq → t.seq < u.seq := by
  obtain ⟨es, st, st', n, y, hrun, hclaim, hbundle, -⟩ := exists_overtaking_sample
  obtain ⟨-, t, ht, hitem, hseq, -⟩ := ties_in_turn_iff Sample.prepare_request hrun hclaim
  exact ⟨es, st, st', n, y, t, hrun, hclaim, hbundle, List.mem_of_getElem? ht, hitem, hseq⟩

/-- Claims are not always in turn. -/
theorem not_forall_claims_in_turn :
    ¬∀ (f : Federation) (p : SearchPlan) (r : SearchRequest) (s : Session) (v : Verifier)
      (es : List Event) (st st' : SearchState) (m : Move) (e : Event),
      prepare f r = .ok (p, s) → Run f p (.initial s v) es st → st.move f p m = some (e, st') →
        (Line.after s es).InTurn st.session e := by
  intro hturn
  obtain ⟨es, st, st', n, y, hrun, hclaim, -, hovertakes⟩ := exists_overtaking_sample
  exact hovertakes (hturn _ _ _ _ _ es st st' .claim _ Sample.prepare_request hrun hclaim)

end Engine

end ProvenanceTrail
