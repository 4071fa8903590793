import Autorun.Proofs.MsgQueue

namespace Autorun.Server.MsgQueue

open List

variable {h h' : Heap} {q s r m : Nat} {Q : Queue} {R R' : Result} {M : Sent} {loose : Option Nat}
variable {es log : List Event} {value : UInt64} {error : Status}

/-- Outcomes are stored with one error for one cause, and a result whose sender waits, and is not
the queue that ends, is left alone or gets its outcome. -/
structure Settles (cause : Result → Prop) (ending : Option Nat) (error : Status) (h h' : Heap)
    (es : List Event) : Prop where
  log : h'.log = es ++ h.log
  older : ∀ x R', h'.results x = some R' → ∃ R, h.results x = some R ∧ Older R R'
  stored : ∀ x v e, .stored x v e ∈ es →
    (∃ R, h.results x = some R ∧ R.replied = false ∧ cause R) ∧ v = 0 ∧ e = error
  fate : ∀ x R, h.results x = some R → R.replied = false → R.sender ≠ none → R.sender ≠ ending →
    h'.results x = some R ∨ .stored x 0 error ∈ es
  left : ∀ x, .left x ∈ es → ∃ R q, h.results x = some R ∧ R.sender = some q ∧ ending = some q

theorem Settles.refl (cause : Result → Prop) (ending : Option Nat) (error : Status) (h : Heap) :
    Settles cause ending error h h [] :=
  ⟨rfl, fun _ R hR => ⟨R, hR, Older.refl R⟩, by simp, fun _ _ hR _ _ _ => .inl hR, by simp⟩

variable {cause : Result → Prop} {ending : Option Nat}

theorem Settles.trans {h1 : Heap} {es1 : List Event}
    (hcause : ∀ R R', Older R R' → cause R' → cause R) (hs : Settles cause ending error h h1 es)
    (hs' : Settles cause ending error h1 h' es1) : Settles cause ending error h h' (es1 ++ es) := by
  refine ⟨by rw [hs'.log, hs.log, append_assoc], ?_, ?_, ?_, ?_⟩
  · intro x R'' hR''
    obtain ⟨R', hR', ho'⟩ := hs'.older x R'' hR''
    obtain ⟨R, hR, ho⟩ := hs.older x R' hR'
    exact ⟨R, hR, ho.trans ho'⟩
  · intro x v e hmem
    rcases mem_append.mp hmem with hmem | hmem
    · obtain ⟨⟨R', hR', hrep, hc⟩, hv, he⟩ := hs'.stored x v e hmem
      obtain ⟨R, hR, ho⟩ := hs.older x R' hR'
      exact ⟨⟨R, hR, ho.replied hrep, hcause R R' ho hc⟩, hv, he⟩
    · exact hs.stored x v e hmem
  · intro x R hR hrep hsender hending
    rcases hs.fate x R hR hrep hsender hending with hsame | hstored
    · rcases hs'.fate x R hsame hrep hsender hending with hsame' | hstored'
      · exact .inl hsame'
      · exact .inr (mem_append_left _ hstored')
    · exact .inr (mem_append_right _ hstored)
  · intro x hmem
    rcases mem_append.mp hmem with hmem | hmem
    · obtain ⟨R', q, hR', hq, hending⟩ := hs'.left x hmem
      obtain ⟨R, hR, ho⟩ := hs.older x R' hR'
      exact ⟨R, q, hR, ho.sender q hq, hending⟩
    · exact hs.left x hmem

theorem Settles.of_one (hR : h.results r = some R)
    (hlog : h'.log = es ++ h.log) (hothers : ∀ x, x ≠ r → h'.results x = h.results x)
    (hold : ∀ R', h'.results r = some R' → Older R R')
    (hes : ∀ e ∈ es, e = .freed r ∨ (e = .stored r 0 error ∧ R.replied = false ∧ cause R) ∨
      (e = .left r ∧ R.sender ≠ none ∧ R.sender = ending))
    (hfate : R.replied = false → R.sender ≠ none → R.sender ≠ ending → .stored r 0 error ∈ es) :
    Settles cause ending error h h' es := by
  refine ⟨hlog, fun x R' hR' => ?_, fun x v e he => ?_, fun x R0 hR0 hrep hs hne => ?_, fun x he => ?_⟩
  · by_cases hx : x = r
    · subst hx
      exact ⟨R, hR, hold R' hR'⟩
    · exact ⟨R', (hothers x hx).symm.trans hR', Older.refl R'⟩
  · rcases hes _ he with he | ⟨he, hc⟩ | ⟨he, -⟩ <;> cases he
    exact ⟨⟨R, hR, hc⟩, rfl, rfl⟩
  · by_cases hx : x = r
    · subst hx
      cases hR.symm.trans hR0
      exact .inr (hfate hrep hs hne)
    · exact .inl ((hothers x hx).trans hR0)
  · rcases hes _ he with he | ⟨he, -⟩ | ⟨he, hs, hending⟩ <;> cases he
    obtain ⟨q, hq⟩ := Option.ne_none_iff_exists'.mp hs
    exact ⟨R, q, hR, hq, hending ▸ hq⟩

theorem Settled.settles (hs : Settled h h' r 0 error es) (cause : Result → Prop) (ending : Option Nat)
    (hR : h.results r = some R) (hpending : R.replied = false) (hcause : cause R) :
    Settles cause ending error h h' es :=
  .of_one hR hs.log hs.others (fun R' hR' => (hs.answered R R' hR hR').2)
    (fun e he => (hs.events e he).imp_right fun he => .inl ⟨he, hpending, hcause⟩) fun _ _ _ => hs.stored

/-- A message is taken off its queue for good, and its result waits for nothing but an outcome. -/
theorem Ok.forget (ho : Ok h) (hQ : h.queues q = some Q) (hR : h.results r = some R) (hmsg : R.msg = some m)
    (hreceiver : R.receiver = some q) (hasDeadline : Bool) :
    Ok ((h.putQueue q (Q.without m)).putResult r { R with hasDeadline, msg := none, receiver := none }) (some r) :=
  ⟨ho.wf.drop hQ hR hmsg hreceiver rfl rfl rfl rfl, ho.log.retouch hR rfl rfl rfl rfl rfl rfl (.inl rfl)⟩

theorem Wf.forgotten (hw : Wf h none) (hQ : h.queues q = some Q) (hR : h.results r = some R) (hmem : m ∈ h.sent q)
    (R' : Result) (hcallback : R'.callbackMsg = R.callbackMsg) :
    (∀ p, m ∉ ((h.putQueue q (Q.without m)).putResult r R').sent p) ∧
      ∀ x, ((h.putQueue q (Q.without m)).putResult r R').callback x ≠ some m := by
  refine hw.taken hmem hQ (fun p => by simp) fun x => ?_
  have hfields := result_fields hR
  grind

theorem Frame.gone (hf : Frame h h' r R.callbackMsg) (hw : Wf h loose) (hR : h.results r = some R)
    (hm : h.messages m = none) : h'.messages m = none := by
  refine (hf.messages m fun hc => ?_).trans hm
  exact (hw.callbacks r m ((field_some hR _).trans hc)).1 hm

theorem expire_result (ho : Ok h) (hR : h.results r = some R) (hpending : R.replied = false) :
    ∃ h' es, expireResult h r = some h' ∧ Ok h' ∧ Settled h h' r 0 .timeout es ∧
      ∀ m, h.messages m = none ∨ R.msg = some m → h'.messages m = none := by
  have ho0 := (ho.loosen r).mark hR R.data false
  unfold expireResult
  simp only [hR, Option.bind_eq_bind, Option.bind_some]
  cases hmsg : R.msg with
  | none =>
    obtain ⟨h', es, heq, ho', hf, hs⟩ := store_result ho0 (put_result_self ..) hpending hmsg 0 .timeout
    simp only [hmsg] at heq
    exact ⟨h', es, heq, ho', hs.after hR rfl rfl ⟨fun h => h, fun _ h => h, fun _ h => h, nofun, rfl⟩,
      fun m hm => hf.gone ho0.wf (put_result_self ..) (by simpa using hm)⟩
  | some m =>
    obtain ⟨-, hne, hin⟩ := ho.wf.undelivered r m ((field_some hR _).trans hmsg)
    obtain ⟨q, hq⟩ := Option.ne_none_iff_exists'.mp hne
    have hreceiver : R.receiver = some q := (field_some hR _).symm.trans hq
    obtain ⟨Q, hQ, -⟩ := queue_of_mem (hin q hq)
    obtain ⟨M, hM⟩ := Option.ne_none_iff_exists'.mp (ho.wf.carried q m (hin q hq)).1
    have hM0 : ((h.putResult r { R with hasDeadline := false }).putQueue q (Q.without m)).messages m = some M := hM
    have hunlink := unlink_sent ho0.wf (q := q) (Q := Q) hQ m
    simp only [hmsg, hreceiver] at hunlink hM0
    simp only [hreceiver, hunlink, free_message hM0, Option.bind_some, put_erased]
    have ho1 := ho.forget hQ hR hmsg hreceiver false
    obtain ⟨hgone, hcall⟩ := ho.wf.forgotten hQ hR (hin q hq)
      { R with hasDeadline := false, msg := none, receiver := none } rfl
    have hw2 := ho1.wf.eraseMessage hgone hcall
    obtain ⟨h', es, heq, ho', hf, hs⟩ := store_result ⟨hw2, { ho1.log with }⟩ (put_result_self ..) hpending rfl 0 .timeout
    exact ⟨h', es, heq, ho', hs.after hR rfl rfl ⟨fun h => h, nofun, fun _ h => h, nofun, rfl⟩,
      fun x hx => hf.gone hw2 (put_result_self ..) (by grind)⟩

theorem find_due (hthere : ∀ x ∈ list, results x ≠ none) (now : Nat) :
    (findDue results now list = some none ∧ ∀ x ∈ list, ∀ R, results x = some R → R.due now = false) ∨
      ∃ r R, findDue results now list = some (some r) ∧ results r = some R ∧ R.due now = true := by
  induction list with
  | nil => exact .inl ⟨rfl, by simp⟩
  | cons x list ih =>
    obtain ⟨X, hX⟩ := Option.ne_none_iff_exists'.mp (hthere x (by simp))
    simp only [findDue, hX, Option.bind_eq_bind, Option.bind_some]
    cases hdue : X.due now with
    | true => exact .inr ⟨x, X, rfl, hX, hdue⟩
    | false =>
      refine (ih fun y hy => hthere y (by simp [hy])).imp (fun ⟨heq, hnone⟩ => ⟨heq, fun y hy R hR => ?_⟩) id
      rcases mem_cons.mp hy with rfl | hy
      · cases hX.symm.trans hR
        exact hdue
      · exact hnone y hy R hR

theorem find_due_queues (hw : Wf h none) (hlive : ∀ q ∈ list, h.queues q ≠ none) (now : Nat) :
    (findDueQueues h now list = some none ∧ ∀ q ∈ list, ∀ x R, h.results x = some R → R.sender = some q →
      R.due now = false) ∨
      ∃ r R, findDueQueues h now list = some (some r) ∧ h.results r = some R ∧ R.due now = true := by
  induction list with
  | nil => exact .inl ⟨rfl, by simp⟩
  | cons q list ih =>
    obtain ⟨Q, hQ⟩ := Option.ne_none_iff_exists'.mp (hlive q (by simp))
    have hthere : ∀ x, x ∈ Q.sendResults ∨ x ∈ Q.callbackResults → h.results x ≠ none := fun x hx => by
      obtain ⟨R, hR, -⟩ := hw.lists_there hQ hx
      simp [hR]
    simp only [findDueQueues, hQ, Option.bind_eq_bind, Option.bind_some]
    rcases find_due (fun x hx => hthere x (.inl hx)) now with ⟨heq, hnone⟩ | ⟨r, R, heq, hR, hdue⟩
    case inr => exact .inr ⟨r, R, by simp [heq], hR, hdue⟩
    rcases find_due (fun x hx => hthere x (.inr hx)) now with ⟨heq', hnone'⟩ | ⟨r, R, heq', hR, hdue⟩
    case inr => exact .inr ⟨r, R, by simp [heq, heq'], hR, hdue⟩
    simp only [heq, heq']
    refine (ih fun p hp => hlive p (by simp [hp])).imp (fun ⟨heq, hrest⟩ => ⟨heq, fun p hp x R hR hs => ?_⟩) id
    rcases mem_cons.mp hp with rfl | hp
    · -- a result of this queue's is in one of its two lists
      have hlisted := (hw.sends p x).mpr ((field_some hR _).trans hs)
      simp only [Heap.sends, Heap.calls, field_some hQ] at hlisted
      exact hlisted.elim (fun hx => hnone x hx R hR) fun hx => hnone' x hx R hR
    · exact hrest p hp x R hR hs

theorem due_pending (hdue : R.due now = true) :
    R.replied = false ∧ R.hasDeadline = true ∧ R.deadline ≤ now := by
  simpa [Result.due, and_assoc] using hdue

/-- What an expiry does to results: those that are due get their outcome if their sender waits, and
their messages are gone; the others stay as they are. -/
structure Expired (now : Nat) (h h' : Heap) : Prop where
  done : ∀ x R, h'.results x = some R → R.sender ≠ none → R.due now = false
  same : ∀ x R, h.results x = some R → R.due now = false → h'.results x = some R
  gone : ∀ m, h.messages m = none → h'.messages m = none
  dropped : ∀ x R m, h.results x = some R → R.due now = true → R.sender ≠ none → R.msg = some m →
    h'.messages m = none

/-- The results that may still expire are among `pending`, and each turn takes one of them. -/
theorem expire_loop (ho : Ok h) (now : Nat) (pending : List Nat)
    (hpending : ∀ x R, h.results x = some R → R.replied = false → R.hasDeadline = true → x ∈ pending)
    (hfuel : pending.length < fuel) :
    ∃ h' es, expireLoop now fuel h = some h' ∧ Ok h' ∧
      Settles (fun R => R.hasDeadline = true ∧ R.deadline ≤ now) none .timeout h h' es ∧
      Expired now h h' := by
  induction fuel generalizing h pending with
  | zero => exact absurd hfuel (Nat.not_lt_zero _)
  | succ fuel ih =>
    have hhead := fun q => (ho.wf.head q).2
    unfold expireLoop
    rcases find_due_queues ho.wf (fun q hq => (hhead q).mp hq) now with ⟨heq, hnone⟩ | ⟨r, R, heq, hR, hdue⟩
    · have hdone : ∀ x R, h.results x = some R → R.sender ≠ none → R.due now = false := by
        intro x R hR hs
        obtain ⟨q, hq⟩ := Option.ne_none_iff_exists'.mp hs
        obtain ⟨Q, hQ⟩ := ho.wf.sender_queue hR hq
        exact hnone q ((hhead q).mpr (by simp [hQ])) x R hR hq
      refine ⟨h, [], by simp [heq], ho, Settles.refl _ _ _ h, hdone, fun _ _ hR _ => hR, fun _ hm => hm, ?_⟩
      intro x R m hR hdue hs
      simp [hdone x R hR hs] at hdue
    · obtain ⟨hfresh, hhas, hle⟩ := due_pending hdue
      obtain ⟨h1, es, heq1, ho1, hs, hmessages⟩ := expire_result ho hR hfresh
      have hmem := hpending r R hR hfresh hhas
      have hleft : ∀ x R', h1.results x = some R' → R'.replied = false → R'.hasDeadline = true →
          x ∈ pending.erase r := by
        intro x R' hR' hrep hh
        have hx : x ≠ r := by
          rintro rfl
          have := (hs.answered R R' hR hR').1
          simp [hrep] at this
        exact (mem_erase_of_ne hx).mpr (hpending x R' ((hs.others x hx).symm.trans hR') hrep hh)
      have hlen : (pending.erase r).length < fuel := by
        rw [length_erase_of_mem hmem]
        have := length_pos_of_mem hmem
        omega
      obtain ⟨h', es', heq', ho', hs', he⟩ := ih ho1 (pending.erase r) hleft hlen
      refine ⟨h', es' ++ es, by simp [heq, heq1, heq'], ho', Settles.trans ?_ (hs.settles _ _ hR hfresh ⟨hhas, hle⟩) hs',
        he.done, fun x X hX hx => ?_, fun m hm => he.gone m (hmessages m (.inl hm)), fun x X m hX hx hsx hm => ?_⟩
      · exact fun _ _ hold hc => ⟨hold.hasDeadline hc.1, hold.deadline ▸ hc.2⟩
      · have hxr : x ≠ r := by
          rintro rfl
          cases hR.symm.trans hX
          simp [hdue] at hx
        exact he.same x X ((hs.others x hxr).trans hX) hx
      · by_cases hxr : x = r
        · subst hxr
          cases hR.symm.trans hX
          exact he.gone m (hmessages m (.inr hm))
        · exact he.dropped x X m ((hs.others x hxr).trans hX) hx hsx hm

theorem expire_ok (ho : Ok h) (now : Nat) :
    ∃ h' es, expire h now = some h' ∧ Ok h' ∧
      Settles (fun R => R.hasDeadline = true ∧ R.deadline ≤ now) none .timeout h h' es ∧
      Expired now h h' := by
  refine expire_loop ho now (List.range h.next) (fun x R hR _ _ => ?_) (by simp)
  refine mem_range.mpr (Nat.lt_of_not_le fun hle => ?_)
  cases (ho.wf.fresh x hle).2.2.symm.trans hR

/-- What a part of a queue's destruction does: outcomes for what the queue received, and the
queue's own lists only lose elements. -/
structure Ending (q : Nat) (h h' : Heap) (es : List Event) : Prop where
  settles : Settles (fun R => R.receiver = some q) (some q) .accessDenied h h' es
  head : h'.head = h.head
  live : ∀ p, h'.queues p = none ↔ h.queues p = none
  sends : (h'.sends q).Sublist (h.sends q)
  calls : (h'.calls q).Sublist (h.calls q)
  holds : (h'.holds q).Sublist (h.holds q)
  sent : (h'.sent q).Sublist (h.sent q)

theorem Ending.refl (q : Nat) (h : Heap) : Ending q h h [] :=
  ⟨Settles.refl _ _ _ h, rfl, fun _ => Iff.rfl, .refl _, .refl _, .refl _, .refl _⟩

theorem Ending.trans {h1 : Heap} {es1 : List Event} (he : Ending q h h1 es) (he' : Ending q h1 h' es1) :
    Ending q h h' (es1 ++ es) :=
  ⟨he.settles.trans (fun _ _ ho hc => ho.receiver q hc) he'.settles, he'.head.trans he.head,
    fun p => (he'.live p).trans (he.live p), he'.sends.trans he.sends, he'.calls.trans he.calls,
    he'.holds.trans he.holds, he'.sent.trans he.sent⟩

/-- The queue that ends loses what is in `Q` but not in `Q'`, and nothing is sent to it. -/
theorem Ending.of_frame {h1 : Heap} {Q' : Queue} {c : Option Nat}
    (hs : Settles (fun R => R.receiver = some q) (some q) .accessDenied h h' es) (hf : Frame h1 h' r c)
    (hQ : h.queues q = some Q) (hqueues : h1.queues = put h.queues q (some Q')) (hhead : h1.head = h.head)
    (hsends : Q'.sendResults = Q.sendResults) (hcalls : Q'.callbackResults = Q.callbackResults)
    (hholds : Q'.recvResult.Sublist Q.recvResult) (hsent : Q'.sent.Sublist Q.sent) (hnot : h1.sender r ≠ some q) :
    Ending q h h' es ∧ h'.holds q = Q'.recvResult ∧ h'.sent q = Q'.sent := by
  have hfields := queue_fields hQ
  have hmail : h'.sent q = Q'.sent := by
    rcases hf.sent q with hsame | ⟨hself, -⟩
    · simp [hsame, hqueues]
    · exact absurd hself hnot
  have hstack : h'.holds q = Q'.recvResult := by simp [hf.holds q, hqueues]
  refine ⟨⟨hs, hf.head.trans hhead, fun p => (hf.live p).trans ?_, (hf.sends q).trans ?_, (hf.calls q).trans ?_, ?_, ?_⟩,
    hstack, hmail⟩
  · grind
  · simp [hqueues, hfields, hsends]
  · simp [hqueues, hfields, hcalls]
  · rw [hstack]
    simpa [hfields] using hholds
  · rw [hmail]
    simpa [hfields] using hsent

theorem leave_result (ho : Ok h) (hR : h.results r = some R) (hs : R.sender = some q) :
    ∃ h' es, removeResultFromSender h r = some h' ∧ Ok h' ∧ Ending q h h' es ∧
      ∀ p, h'.sends p = (h.sends p).erase r ∧ h'.calls p = (h.calls p).erase r ∧ h'.sent p = h.sent p := by
  obtain ⟨h', es, heq, ho', hf, hlists, hlog, hes, hresult⟩ := remove_result (ho.loosen r) hR hs
  have hsettles : Settles (fun R => R.receiver = some q) (some q) .accessDenied h h' es := by
    refine .of_one hR hlog hf.results (fun R' hR' => ?_) (fun e he => ?_) fun _ _ hne => absurd hs hne
    · rcases hresult with hnone | hsome
      · cases hnone.symm.trans hR'
      · cases hsome.symm.trans hR'
        exact ⟨fun h => h, fun _ h => h, nofun, fun h => h, rfl⟩
    · exact (hes e he).elim (fun he => .inr (.inr ⟨he.1, by simp [hs], hs⟩)) .inl
  exact ⟨h', es, heq, ho', ⟨hsettles, hf.head, hf.live, hf.sends q, hf.calls q, hf.holds q ▸ .refl _,
    (hlists q).2.2 ▸ .refl _⟩, hlists⟩

/-- A loop that takes one element off a list of the queue's in each turn. -/
theorem drain {loop : Nat → Heap → Option Heap} {list : Queue → List Nat} {P : Heap → Prop}
    (hstop : ∀ fuel h Q, h.queues q = some Q → list Q = [] → loop (fuel + 1) h = some h)
    (hturn : ∀ fuel h Q x rest, Ok h → P h → h.queues q = some Q → list Q = x :: rest → ∃ h1 es,
      loop (fuel + 1) h = loop fuel h1 ∧ Ok h1 ∧ P h1 ∧ Ending q h h1 es ∧
        field h1.queues list q = (field h.queues list q).erase x)
    (fuel : Nat) (ho : Ok h) (hP : P h) (hQ : h.queues q ≠ none) (hfuel : (field h.queues list q).length < fuel) :
    ∃ h' es, loop fuel h = some h' ∧ Ok h' ∧ Ending q h h' es ∧ field h'.queues list q = [] := by
  induction fuel generalizing h with
  | zero => exact absurd hfuel (Nat.not_lt_zero _)
  | succ fuel ih =>
    obtain ⟨Q, hQ⟩ := Option.ne_none_iff_exists'.mp hQ
    have hat := field_some hQ list
    cases hlist : list Q with
    | nil => exact ⟨h, [], hstop fuel h Q hQ hlist, ho, Ending.refl q h, hat.trans hlist⟩
    | cons x rest =>
      obtain ⟨h1, es, heq, ho1, hP1, he, herase⟩ := hturn fuel h Q x rest ho hP hQ hlist
      have hlen : (field h1.queues list q).length < fuel := by
        rw [hat, hlist] at hfuel herase
        rw [herase, erase_cons_head]
        exact Nat.lt_of_succ_lt_succ hfuel
      obtain ⟨h', es', heq', ho', he', hdone⟩ := ih ho1 hP1 (mt (he.live q).mp (by simp [hQ])) hlen
      exact ⟨h', es' ++ es, heq.trans heq', ho', he.trans he', hdone⟩

theorem leave_results (fuel : Nat) (list : Queue → List Nat)
    (hlist : list = Queue.sendResults ∨ list = Queue.callbackResults) (ho : Ok h) (hQ : h.queues q ≠ none)
    (hfuel : (field h.queues list q).length < fuel) :
    ∃ h' es, leaveResults q list fuel h = some h' ∧ Ok h' ∧ Ending q h h' es ∧ field h'.queues list q = [] := by
  refine drain (P := fun _ => True) (fun fuel h Q hQ hnil => by simp [leaveResults, hQ, hnil])
    (fun fuel h Q r rest ho _ hQ hcons => ?_) fuel ho trivial hQ hfuel
  have hmem : r ∈ Q.sendResults ∨ r ∈ Q.callbackResults := by
    rcases hlist with rfl | rfl <;> simp [hcons]
  obtain ⟨R, hR, hs⟩ := ho.wf.lists_there hQ hmem
  obtain ⟨h1, es, heq, ho1, he, hlists⟩ := leave_result ho hR hs
  refine ⟨h1, es, by simp [leaveResults, hQ, hcons, heq], ho1, trivial, he, ?_⟩
  rcases hlist with rfl | rfl
  · exact (hlists q).1
  · exact (hlists q).2.1

def Alone (q : Nat) (h : Heap) : Prop := h.sends q = [] ∧ h.calls q = []

theorem Alone.keep (ha : Alone q h) (he : Ending q h h' es) : Alone q h' :=
  ⟨sublist_nil.mp (ha.1 ▸ he.sends), sublist_nil.mp (ha.2 ▸ he.calls)⟩

theorem Alone.not_sender (ha : Alone q h) (hw : Wf h loose) (r : Nat) : h.sender r ≠ some q := by
  intro hs
  have hlisted := (hw.sends q r).mpr hs
  rw [ha.1, ha.2] at hlisted
  simp at hlisted

theorem reply_all (fuel : Nat) (ho : Ok h) (ha : Alone q h) (hQ : h.queues q ≠ none)
    (hfuel : (h.holds q).length < fuel) :
    ∃ h' es, replyAll q fuel h = some h' ∧ Ok h' ∧ Ending q h h' es ∧ h'.holds q = [] := by
  refine drain (fun fuel h Q hQ hnil => by simp [replyAll, hQ, hnil]) (fun fuel h Q r rest ho ha hQ hstack => ?_)
    fuel ho ha hQ hfuel
  obtain ⟨R, hR, hreceiver, -⟩ := ho.wf.held hQ hstack
  obtain ⟨h1, es, heq, ho1, hlog, hes, hstored, hend⟩ := reply_ok ho hQ hstack hR 0 .accessDenied true [] true
  obtain ⟨hf, hold⟩ := hend rfl
  have hsettles : Settles (fun R => R.receiver = some q) (some q) .accessDenied h h1 es :=
    .of_one hR hlog hf.results hold (fun e he => (hes e he).imp_right fun he => .inl ⟨he.1, he.2, hreceiver⟩)
      fun hp hs _ => hstored hp hs
  obtain ⟨he, hholds, -⟩ := Ending.of_frame hsettles hf hQ rfl rfl rfl rfl (hstack ▸ sublist_cons_self ..)
    (.refl _) (ha.not_sender ho.wf r)
  exact ⟨h1, es, by simp [replyAll, hQ, hstack, heq], ho1, ha.keep he, he, by simp [hholds, field_some hQ, hstack]⟩

theorem free_plain (ho : Ok h) (hQ : h.queues q = some Q) (hmem : m ∈ h.sent q)
    (hM : h.messages m = some M) (hres : M.result = none) :
    ∃ h', (unlinkSent h q m).bind (freeSent · m) = some h' ∧ Ok h' ∧ Ending q h h' [] ∧
      h'.sent q = (h.sent q).erase m := by
  have hq := queue_fields hQ
  obtain ⟨hgone, hcall⟩ := ho.wf.taken hmem hQ (fun _ => rfl) fun _ => rfl
  have hw1 := (ho.wf.takePlain (m := m) hQ ((field_some hM _).trans hres)).eraseMessage hgone hcall
  have hsub : (Q.sent.erase m).Sublist Q.sent := erase_sublist
  refine ⟨(h.putQueue q (Q.without m)).eraseMessage m, ?_, ⟨hw1, ho.log⟩,
    ⟨{ Settles.refl _ _ _ h with }, rfl, fun p => ?_, ?_, ?_, ?_, ?_⟩, ?_⟩
  · simp [unlink_sent ho.wf hQ, freeSent, hM, hres, free_message]
  all_goals grind

theorem free_with_result (ho : Ok h) (hQ : h.queues q = some Q) (hmem : m ∈ h.sent q)
    (hM : h.messages m = some M) (hres : M.result = some r) (ha : Alone q h) :
    ∃ h' es, (unlinkSent h q m).bind (freeSent · m) = some h' ∧ Ok h' ∧ Ending q h h' es ∧
      h'.sent q = (h.sent q).erase m := by
  obtain ⟨hmsg, hreceiver⟩ := (ho.wf.carried q m hmem).2 r ((field_some hM _).trans hres)
  obtain ⟨R, hR, hRm⟩ := result_of_some hmsg
  obtain ⟨hRs, hRr, -, hRc, hRp⟩ := result_fields hR
  have hpending : R.replied = false := hRp.symm.trans (ho.wf.pending r (by simp [hmsg]))
  have hcm : R.callbackMsg ≠ some m := fun hc => (ho.wf.callbacks r m (hRc.trans hc)).2.2 q hmem
  obtain ⟨hgone, hcall⟩ := ho.wf.forgotten hQ hR hmem { R with msg := none, receiver := none } rfl
  obtain ⟨h1, es, heq, ho1, hf, hs⟩ := store_result (ho.forget hQ hR hRm (hRr.symm.trans hreceiver) R.hasDeadline)
    (put_result_self ..) hpending rfl 0 .accessDenied
  have hs' := hs.after hR rfl rfl ⟨fun h => h, nofun, fun _ h => h, fun h => h, rfl⟩
  have hM1 : h1.messages m = some M := (hf.messages m hcm).trans hM
  have hgone1 : ∀ p, m ∉ h1.sent p := by
    intro p hp
    rcases hf.sent p with hsame | ⟨-, c, hc, hsame⟩
    · exact hgone p (hsame ▸ hp)
    · rw [hsame, mem_append, mem_singleton] at hp
      rcases hp with hp | rfl
      · exact hgone p hp
      · exact hcm hc
  have hcall1 : ∀ x, h1.callback x ≠ some m := by
    intro x hx
    have howner := (ho1.wf.callbacks x m hx).2.1
    simp [field_some hM1, hres] at howner
  obtain ⟨he, -, hsent⟩ := Ending.of_frame (hs'.settles _ _ hR hpending (hRr.symm.trans hreceiver)) hf hQ rfl rfl rfl rfl
    (.refl _) erase_sublist (by simpa [hRs] using ha.not_sender ho.wf r)
  refine ⟨h1.eraseMessage m, es, ?_, ⟨ho1.wf.eraseMessage hgone1 hcall1, ho1.log⟩,
    { he with settles := { he.settles with } }, ?_⟩
  · simp [unlink_sent ho.wf hQ, freeSent, hM, hres, hR, heq, free_message hM1]
  · simpa [field_some hQ] using hsent

theorem free_all_sent (fuel : Nat) (ho : Ok h) (ha : Alone q h) (hQ : h.queues q ≠ none)
    (hfuel : (h.sent q).length < fuel) :
    ∃ h' es, freeAllSent q fuel h = some h' ∧ Ok h' ∧ Ending q h h' es ∧ h'.sent q = [] := by
  refine drain (fun fuel h Q hQ hnil => by simp [freeAllSent, hQ, hnil]) (fun fuel h Q m rest ho ha hQ hsent => ?_)
    fuel ho ha hQ hfuel
  have hmem : m ∈ h.sent q := by simp [field_some hQ, hsent]
  obtain ⟨M, hM⟩ := Option.ne_none_iff_exists'.mp (ho.wf.carried q m hmem).1
  obtain ⟨h1, es, heq, ho1, he, herase⟩ : ∃ h1 es, (unlinkSent h q m).bind (freeSent · m) = some h1 ∧
      Ok h1 ∧ Ending q h h1 es ∧ h1.sent q = (h.sent q).erase m := by
    cases hres : M.result with
    | none =>
      obtain ⟨h1, hfree⟩ := free_plain ho hQ hmem hM hres
      exact ⟨h1, [], hfree⟩
    | some r => exact free_with_result ho hQ hmem hM hres ha
  refine ⟨h1, es, ?_, ho1, ha.keep he, he, herase⟩
  simp only [freeAllSent, hQ, hsent, Option.bind_eq_bind, Option.bind_some]
  rw [← Option.bind_assoc, heq, Option.bind_some]

theorem unlink_queue (hlive : ∀ x ∈ list, queues x ≠ none) :
    unlinkQueue queues q list = some (list.erase q) := by
  induction list with
  | nil => rfl
  | cons x list ih =>
    obtain ⟨X, hX⟩ := Option.ne_none_iff_exists'.mp (hlive x (by simp))
    simp only [unlinkQueue, hX]
    by_cases hx : x = q
    · simp [hx]
    · rw [if_neg hx, ih fun y hy => hlive y (by simp [hy]), erase_cons_tail (by simpa using hx)]
      rfl

/-- `horizon_msgq_destroy`: afterwards no result has the queue for its receiver. -/
theorem destroy_ok (ho : Ok h) (hQ : h.queues q = some Q) :
    ∃ h' es, destroy h q = some h' ∧ Ok h' ∧
      Settles (fun R => R.receiver = some q) (some q) .accessDenied h h' es ∧
      ∀ x R, h'.results x = some R → R.receiver ≠ some q := by
  obtain ⟨hqs, hqc, hqr, hqm, -⟩ := queue_fields hQ
  obtain ⟨h1, es1, heq1, ho1, he1, hdone1⟩ := leave_results (q := q) (Q.sendResults.length + 1)
    Queue.sendResults (.inl rfl) ho (by simp [hQ]) (by simp [field_some hQ])
  obtain ⟨h2, es2, heq2, ho2, he2, hdone2⟩ := leave_results (Q.callbackResults.length + 1)
    Queue.callbackResults (.inr rfl) ho1 (mt (he1.live q).mp (by simp [hQ]))
    (Nat.lt_succ_of_le (hqc ▸ he1.calls.length_le))
  have he2' := he1.trans he2
  have ha2 : Alone q h2 := ⟨sublist_nil.mp (hdone1 ▸ he2.sends), hdone2⟩
  obtain ⟨h3, es3, heq3, ho3, he3, hdone3⟩ := reply_all (Q.recvResult.length + 1) ho2 ha2
    (mt (he2'.live q).mp (by simp [hQ])) (Nat.lt_succ_of_le (hqr ▸ he2'.holds.length_le))
  have he3' := he2'.trans he3
  obtain ⟨h4, es4, heq4, ho4, he4, hdone4⟩ := free_all_sent (Q.sent.length + 1) ho3 (ha2.keep he3)
    (mt (he3'.live q).mp (by simp [hQ])) (Nat.lt_succ_of_le (hqm ▸ he3'.sent.length_le))
  obtain ⟨hsends4, hcalls4⟩ := (ha2.keep he3).keep he4
  have he4' := he3'.trans he4
  obtain ⟨hw4, hl4⟩ := ho4
  have hholds4 : h4.holds q = [] := sublist_nil.mp (hdone3 ▸ he4.holds)
  have hw' := hw4.eraseQueue hsends4 hcalls4 hholds4 hdone4
  refine ⟨(h4.setHead (h4.head.erase q)).eraseQueue q, _, ?_, ⟨hw', hl4⟩,
    { he4'.settles with }, fun x R hR hreceiver => ?_⟩
  · have hunlink : unlinkQueue h4.queues q h4.head = some (h4.head.erase q) :=
      unlink_queue fun p hp => (hw4.head p).2.mp hp
    simp [destroy, hQ, heq1, heq2, heq3, heq4, hunlink]
  · have hR4 : h4.results x = some R := hR
    obtain ⟨-, hside, hside', -⟩ := result_fields hR4
    cases hmsg : R.msg with
    | none =>
      have hheld := (hw4.holds q x).mpr ⟨hside.trans hreceiver, hside'.trans hmsg⟩
      rw [hholds4] at hheld
      cases hheld
    | some m =>
      have hsent := (hw4.undelivered x m (hside'.trans hmsg)).2.2 q (hside.trans hreceiver)
      rw [hdone4] at hsent
      cases hsent

theorem find_live (hlive : ∀ q ∈ list, h.queues q ≠ none) (tid : Nat) : ∃ found, find h tid list = some found := by
  induction list with
  | nil => exact ⟨none, rfl⟩
  | cons q list ih =>
    obtain ⟨Q, hQ⟩ := Option.ne_none_iff_exists'.mp (hlive q (by simp))
    simp only [find, hQ, Option.bind_eq_bind, Option.bind_some]
    split
    · exact ⟨some q, rfl⟩
    · exact ih fun p hp => hlive p (by simp [hp])

theorem get_ok (ho : Ok h) (tid : Nat) (memory : Bool) :
    ∃ h', get h tid memory = some h' ∧ Ok h' ∧ h'.log = h.log := by
  obtain ⟨found, heq⟩ := find_live (fun q hq => (ho.wf.head q).2.mp hq) tid
  unfold get
  simp only [heq, Option.bind_eq_bind, Option.bind_some]
  cases found with
  | some q => exact ⟨h, rfl, ho, rfl⟩
  | none =>
    dsimp only
    split
    · exact ⟨h, rfl, ho, rfl⟩
    · exact ⟨_, rfl, ⟨ho.wf.create tid, ho.log.1, fun r hr => Nat.lt_succ_of_lt (ho.log.2 r hr)⟩, rfl⟩

/-- What makes an operation store an outcome: a reply, for the message received last; the passing
of a deadline; the end of the receiver. -/
def Cause (h : Heap) (r : Nat) : Op → UInt64 → Status → Prop
  | .reply q value error _ _ _, v, e =>
    (∃ Q rest, h.queues q = some Q ∧ Q.recvResult = r :: rest) ∧ v = value ∧ e = error
  | .expire now, v, e =>
    (∃ R, h.results r = some R ∧ R.hasDeadline = true ∧ R.deadline ≤ now) ∧ v = 0 ∧ e = .timeout
  | .destroy q, v, e =>
    (∃ R, h.results r = some R ∧ R.receiver = some q ∧ h.live q = true) ∧ v = 0 ∧ e = .accessDenied
  | _, _, _ => False

/-- What makes a sender stop waiting: it gives up the wait, it ends, or there was none. -/
def Leaves (h : Heap) (r : Nat) : Op → Prop
  | .send sender _ _ _ _ _ => sender = none ∧ r = h.next + 1
  | .getReply q cancel => cancel = true ∧ ∃ R, h.results r = some R ∧ R.sender = some q
  | .destroy q => ∃ R, h.results r = some R ∧ R.sender = some q
  | _ => False

/-- The result is there without an outcome. -/
def Pending (h : Heap) (r : Nat) : Prop := ∃ R, h.results r = some R ∧ R.replied = false

def Waits (h : Heap) (r : Nat) : Prop := ∃ R, h.results r = some R ∧ R.replied = false ∧ R.sender ≠ none

/-- What an operation does about outcomes: it stores one where there is a cause and none was
stored before, and only there; and where a sender waits and goes on waiting, it does. -/
structure Outcomes (h : Heap) (op : Op) (h' : Heap) : Prop where
  events : ∃ es, h'.log = es ++ h.log ∧
    (∀ r v e, .stored r v e ∈ es → Pending h r ∧ Cause h r op v e) ∧
    (∀ r v e, Waits h r → ¬ Leaves h r op → Cause h r op v e → .stored r v e ∈ es) ∧
    ∀ r, .left r ∈ es → Leaves h r op

theorem Outcomes.of_quiet {op : Op} (hlog : h'.log = es ++ h.log) (hquiet : Quiet (fun r => Leaves h r op) es)
    (hcause : ∀ r v e, ¬ Cause h r op v e) : Outcomes h op h' :=
  ⟨es, hlog, fun r v e he => absurd he (hquiet.stored r v e), fun r v e _ _ hc => absurd hc (hcause r v e),
    hquiet.left⟩

theorem Outcomes.of_same {op : Op} (hlog : h'.log = h.log) (hcause : ∀ r v e, ¬ Cause h r op v e) :
    Outcomes h op h' :=
  .of_quiet (show h'.log = [] ++ h.log from hlog) (.nil _) hcause

/-- What is left of a result at the end says whether it got its outcome on the way. -/
theorem Outcomes.of_settles {op : Op}
    (hs : Settles cause ending error h h' es)
    (hcause : ∀ r v e, Cause h r op v e ↔ (∃ R, h.results r = some R ∧ cause R) ∧ v = 0 ∧ e = error)
    (hleaves : ∀ r R q, h.results r = some R → R.sender = some q → (ending = some q ↔ Leaves h r op))
    (hdone : ∀ x R, h'.results x = some R → R.replied = false → R.sender ≠ none → ¬ cause R) :
    Outcomes h op h' := by
  refine ⟨es, hs.log, fun r v e he => ?_, fun r v e hwaits hstays hc => ?_, fun r he => ?_⟩
  · obtain ⟨⟨R, hR, hpending, hcR⟩, hv, he⟩ := hs.stored r v e he
    exact ⟨⟨R, hR, hpending⟩, (hcause r v e).mpr ⟨⟨R, hR, hcR⟩, hv, he⟩⟩
  · obtain ⟨⟨R, hR, hcR⟩, rfl, rfl⟩ := (hcause r v e).mp hc
    obtain ⟨R0, hR0, hpending, hsender⟩ := hwaits
    cases hR.symm.trans hR0
    obtain ⟨q, hq⟩ := Option.ne_none_iff_exists'.mp hsender
    have hne : R.sender ≠ ending := fun heq => hstays ((hleaves r R q hR hq).mp (heq ▸ hq))
    rcases hs.fate r R hR hpending hsender hne with hsame | hstored
    · exact absurd hcR (hdone r R hsame hpending hsender)
    · exact hstored
  · obtain ⟨R, q, hR, hq, hending⟩ := hs.left r he
    exact (hleaves r R q hR hq).mp hending

theorem reply_outcomes (ho : Ok h) (hQ : h.queues q = some Q) (value : UInt64) (error : Status) (remove : Bool)
    (data : List UInt8) (memory : Bool) :
    ∃ h', reply h q value error remove data memory = some h' ∧ Ok h' ∧
      Outcomes h (.reply q value error remove data memory) h' := by
  cases hstack : Q.recvResult with
  | nil =>
    refine ⟨h, by simp [reply, hQ, hstack], ho, .of_same rfl ?_⟩
    rintro r v e ⟨⟨Q', rest, hQ', hrest⟩, -⟩
    cases hQ.symm.trans hQ'
    simp [hstack] at hrest
  | cons r rest =>
    obtain ⟨R, hR, -, -⟩ := ho.wf.held hQ hstack
    obtain ⟨h', es, heq, ho', hlog, hes, hstored, -⟩ := reply_ok ho hQ hstack hR value error remove data memory
    refine ⟨h', heq, ho', es, hlog, fun x v e he => ?_, fun x v e hwaits _ hc => ?_, fun x he => ?_⟩
    · rcases hes _ he with he | ⟨he, hpending⟩
      · cases he
      · cases he
        exact ⟨⟨R, hR, hpending⟩, ⟨Q, rest, hQ, hstack⟩, rfl, rfl⟩
    · obtain ⟨⟨Q', rest', hQ', hrest⟩, rfl, rfl⟩ := hc
      cases hQ.symm.trans hQ'
      obtain ⟨rfl, -⟩ := List.cons.inj (hstack.symm.trans hrest)
      obtain ⟨R0, hR0, hpending, hsender⟩ := hwaits
      cases hR.symm.trans hR0
      exact hstored hpending hsender
    · rcases hes _ he with he | ⟨he, -⟩ <;> cases he

theorem guarded {op : Op} {x : Option Heap} (ho : Ok h)
    (hgo : ∀ Q, h.queues q = some Q → ∃ h', x = some h' ∧ Ok h' ∧ Outcomes h op h')
    (hdead : h.queues q = none → ∀ r v e, ¬ Cause h r op v e) :
    ∃ h', (if h.live q then x else some h) = some h' ∧ Ok h' ∧ Outcomes h op h' := by
  cases hQ : h.queues q with
  | none => exact ⟨h, by simp [Heap.live, hQ], ho, .of_same rfl (hdead hQ)⟩
  | some Q =>
    obtain ⟨h', heq, hok⟩ := hgo Q hQ
    exact ⟨h', by simp [Heap.live, hQ, heq], hok⟩

theorem step_ok (ho : Ok h) (op : Op) : ∃ h', h.step op = some h' ∧ Ok h' ∧ Outcomes h op h' := by
  cases op with
  | get tid memory =>
    obtain ⟨h', heq, ho', hlog⟩ := get_ok ho tid memory
    exact ⟨h', heq, ho', .of_same hlog fun _ _ _ hc => hc⟩
  | send sender receiver fields data deadline memory =>
    simp only [Heap.step]
    split
    · rename_i hlive
      have hQ : h.queues receiver ≠ none := Option.isSome_iff_ne_none.mp hlive.1
      have hS : ∀ s, sender = some s → h.queues s ≠ none := by
        rintro s rfl
        exact Option.isSome_iff_ne_none.mp hlive.2
      obtain ⟨st, h', es, heq, ho', hlog, hquiet⟩ := send_ok ho hQ hS fields data deadline memory
      exact ⟨h', by simp [heq], ho', .of_quiet hlog hquiet fun _ _ _ hc => hc⟩
    · exact ⟨h, rfl, ho, .of_same rfl fun _ _ _ hc => hc⟩
  | receive q =>
    refine guarded ho (fun Q hQ => ?_) fun _ _ _ _ hc => hc
    obtain ⟨answer, h', heq, ho', hlog⟩ := receive_ok ho hQ
    exact ⟨h', by simp [heq], ho', .of_same hlog fun _ _ _ hc => hc⟩
  | reply q value error remove data memory =>
    refine guarded ho (fun Q hQ => reply_outcomes ho hQ value error remove data memory) ?_
    rintro hnone r v e ⟨⟨Q, rest, hQ, -⟩, -⟩
    cases hnone.symm.trans hQ
  | getReply q cancel =>
    refine guarded ho (fun Q hQ => ?_) fun _ _ _ _ hc => hc
    obtain ⟨answer, h', es, heq, ho', hlog, hquiet⟩ := get_reply_ok ho hQ cancel
    exact ⟨h', by simp [heq], ho', .of_quiet hlog hquiet fun _ _ _ hc => hc⟩
  | expire now =>
    obtain ⟨h', es, heq, ho', hs, he⟩ := expire_ok ho now
    refine ⟨h', heq, ho', .of_settles hs (fun _ _ _ => Iff.rfl) (fun r R q _ _ => by simp [Leaves])
      fun x R hR hpending hsender hc => ?_⟩
    have := he.done x R hR hsender
    simp [Result.due, hpending, hc] at this
  | destroy q =>
    refine guarded ho (fun Q hQ => ?_) ?_
    · obtain ⟨h', es, heq, ho', hs, hdone⟩ := destroy_ok ho hQ
      refine ⟨h', heq, ho', .of_settles hs (fun r v e => ?_) (fun r R p hR hp => ?_)
        fun x R hR _ _ => hdone x R hR⟩
      · simp [Cause, Heap.live, hQ]
      · simp only [Leaves, hR, Option.some.injEq, exists_eq_left', hp]
        exact eq_comm
    · rintro hnone r v e ⟨⟨R, -, -, hlive⟩, -⟩
      simp [Heap.live, hnone] at hlive

theorem initial_ok : Ok {} := by
  refine ⟨?_, fun r => ?_, by simp⟩
  · constructor
    all_goals simp [field, show (default : List Nat) = [] from rfl, show (default : Option Nat) = none from rfl]
  · exact ⟨by simp [account, outcomes], by simp [account, gots], by simp [account, gots], .inl rfl,
      by simp [account], by simp [account], by simp, by simp, by simp, by simp⟩

theorem run_ok (ops : List Op) (ho : Ok h) : ∃ h', h.run ops = some h' ∧ Ok h' := by
  induction ops generalizing h with
  | nil => exact ⟨h, rfl, ho⟩
  | cons op ops ih =>
    obtain ⟨h1, heq, ho1, -⟩ := step_ok ho op
    obtain ⟨h', heq', ho'⟩ := ih ho1
    exact ⟨h', by simp [Heap.run, heq, heq'], ho'⟩

/-- A queue refers to the result, as its sender, as its receiver, or by a message not yet received. -/
def Refers (h : Heap) (q r : Nat) : Prop :=
  ∃ Q, h.queues q = some Q ∧ (r ∈ Q.sendResults ∨ r ∈ Q.callbackResults ∨ r ∈ Q.recvResult ∨
    ∃ m ∈ Q.sent, ∃ M, h.messages m = some M ∧ M.result = some r)

theorem Wf.refers_iff (hw : Wf h none) (r : Nat) : h.results r ≠ none ↔ ∃ q, Refers h q r := by
  constructor
  · intro hr
    rcases hw.referred r hr (by simp) with hs | hv
    · obtain ⟨q, hq⟩ := Option.ne_none_iff_exists'.mp hs
      rcases (hw.sends q r).mpr hq with hmem | hmem
      · obtain ⟨Q, hQ, hmem⟩ := queue_of_mem hmem
        exact ⟨q, Q, hQ, .inl hmem⟩
      · obtain ⟨Q, hQ, hmem⟩ := queue_of_mem hmem
        exact ⟨q, Q, hQ, .inr (.inl hmem)⟩
    · obtain ⟨q, hq⟩ := Option.ne_none_iff_exists'.mp hv
      cases hm : h.msg r with
      | none =>
        obtain ⟨Q, hQ, hmem⟩ := queue_of_mem ((hw.holds q r).mpr ⟨hq, hm⟩)
        exact ⟨q, Q, hQ, .inr (.inr (.inl hmem))⟩
      | some m =>
        obtain ⟨hres, -, hin⟩ := hw.undelivered r m hm
        obtain ⟨Q, hQ, hmem⟩ := queue_of_mem (hin q hq)
        obtain ⟨M, hM⟩ := Option.ne_none_iff_exists'.mp (hw.carried q m (hin q hq)).1
        exact ⟨q, Q, hQ, .inr (.inr (.inr ⟨m, hmem, M, hM, (field_some hM _).symm.trans hres⟩))⟩
  · rintro ⟨q, Q, hQ, hrefers⟩
    obtain ⟨hqs, hqc, hqr, hqm, -⟩ := queue_fields hQ
    have hthere : ∀ {f : Result → Option Nat} {x}, field h.results f r = some x → h.results r ≠ none := by
      intro f x hx
      obtain ⟨R, hR, -⟩ := result_of_some hx
      simp [hR]
    rcases hrefers with hmem | hmem | hmem | ⟨m, hmem, M, hM, hres⟩
    · exact hthere ((hw.sends q r).mp (.inl (hqs ▸ hmem)))
    · exact hthere ((hw.sends q r).mp (.inr (hqc ▸ hmem)))
    · exact hthere ((hw.holds q r).mp (hqr ▸ hmem)).1
    · exact hthere ((hw.carried q m (hqm ▸ hmem)).2 r ((field_some hM _).trans hres)).1

/-- What the log and the heap say of every result: it has at most one outcome, which its sender is
given at most once; it is freed once, when no queue refers to it any more, and then it has had its
outcome or nobody waited for it; and what a queue refers to is there. -/
structure Accounted (h : Heap) : Prop where
  once : ∀ r, (outcomes (account r h.log)).length ≤ 1
  given : ∀ r, (gots (account r h.log)).length ≤ 1 ∧ ∀ x ∈ gots (account r h.log), x ∈ outcomes (account r h.log)
  freed : ∀ r, .made r ∈ h.log →
    ((account r h.log).count (.freed r) = 0 ∧ ∃ q, Refers h q r) ∨
    ((account r h.log).count (.freed r) = 1 ∧ ∀ q, ¬ Refers h q r)
  settled : ∀ r, .freed r ∈ h.log → outcomes (account r h.log) ≠ [] ∨ .left r ∈ h.log
  there : ∀ q r, Refers h q r → .made r ∈ h.log ∧ h.results r ≠ none

theorem mem_account {e : Event} : e ∈ account r log ↔ e ∈ log ∧ e.subject = r := by
  simp [account]

theorem Ok.accounted (ho : Ok h) : Accounted h := by
  obtain ⟨hw, hl, -⟩ := ho
  have hmade : ∀ {r}, .made r ∈ h.log → .made r ∈ account r h.log := fun hm => mem_account.mpr ⟨hm, rfl⟩
  refine ⟨fun r => (hl r).outcome, fun r => ⟨(hl r).got, (hl r).same⟩, fun r hm => ?_, fun r hf => ?_,
    fun q r hrefers => ?_⟩
  · have hcount := (hl r).freed
    by_cases hr : h.results r = none
    · rw [if_pos ⟨hr, hmade hm⟩] at hcount
      exact .inr ⟨hcount, fun q hq => (hw.refers_iff r).mpr ⟨q, hq⟩ hr⟩
    · rw [if_neg fun hn => hr hn.1] at hcount
      exact .inl ⟨hcount, (hw.refers_iff r).mp hr⟩
  · have hpos := count_pos_iff.mpr (mem_account.mpr ⟨hf, rfl⟩ : .freed r ∈ account r h.log)
    rw [(hl r).freed] at hpos
    split at hpos
    · rename_i hgone
      exact ((hl r).settled hgone.1 hgone.2).imp id fun hleft => (mem_account.mp hleft).1
    · exact absurd hpos (Nat.lt_irrefl 0)
  · have hr := (hw.refers_iff r).mpr ⟨q, hrefers⟩
    obtain ⟨R, hR⟩ := Option.ne_none_iff_exists'.mp hr
    exact ⟨(mem_account.mp ((hl r).there R hR)).1, hr⟩

/-- In every sequence of operations on any queues, no pointer goes astray, results are accounted
for, and whatever operation comes next stores the outcomes it causes. -/
theorem sent_results_settle (ops : List Op) :
    ∃ h, Heap.run {} ops = some h ∧ Accounted h ∧
      ∀ op, ∃ h', h.step op = some h' ∧ Outcomes h op h' := by
  obtain ⟨h, heq, ho⟩ := run_ok ops initial_ok
  refine ⟨h, heq, ho.accounted, fun op => ?_⟩
  obtain ⟨h', hstep, -, hout⟩ := step_ok ho op
  exact ⟨h', hstep, hout⟩

/-- A sender gives up its wait before the receiver replies. -/
def givenUp : List Op :=
  [.get 1 true, .get 2 true, .send (some 0) 1 { kind := .ascii } [] none {}, .getReply 0 true, .receive 1,
    .reply 1 7 .success true [] true]

/-- The result is freed by the reply, which is stored nowhere. -/
theorem given_up_without_outcome :
    (Heap.run {} givenUp).map (fun h => account 3 h.log) = some [.freed 3, .left 3, .made 3] := by
  decide

/-- After any operations an expiry ends. Then no result that a sender waits for is due, the messages
of those that were are in no queue, every queue's tail is its last message, and what was not due is
as it was. -/
theorem expire_complete (ops : List Op) (now : Nat) :
    ∃ h h', Heap.run {} ops = some h ∧ expire h now = some h' ∧
      (∀ r R, h'.results r = some R → R.sender ≠ none → R.due now = false) ∧
      (∀ r R m, h.results r = some R → R.due now = true → R.sender ≠ none → R.msg = some m →
        ∀ q Q, h'.queues q = some Q → m ∉ Q.sent) ∧
      (∀ q Q, h'.queues q = some Q → Q.sentTail = Q.sent.getLast?) ∧
      ∀ r R, h.results r = some R → R.due now = false → h'.results r = some R := by
  obtain ⟨h, heq, ho⟩ := run_ok ops initial_ok
  obtain ⟨h', es, heq', ho', -, he⟩ := expire_ok ho now
  refine ⟨h, h', heq, heq', he.done, fun r R m hR hdue hs hm q Q hQ hmem => ?_, fun q Q hQ => ?_, he.same⟩
  · exact (ho'.wf.sent_there hQ).1 m hmem (he.dropped r R m hR hdue hs hm)
  · exact (ho'.wf.sent_there hQ).2.2

/-- The sender of a message with a deadline stops waiting for it. -/
def outlived : List Op :=
  [.get 1 true, .get 2 true, .send (some 0) 1 { kind := .ascii } [] (some 5) {}, .getReply 0 true, .expire 10]

/-- Its result keeps the deadline that has passed, without a reply. -/
theorem outlived_deadline :
    ((Heap.run {} outlived).bind fun h => h.results 3).map
      (fun R => (R.replied, R.hasDeadline, decide (R.deadline ≤ 10))) = some (false, true, true) := by
  decide

end Autorun.Server.MsgQueue
