import Autorun.Proofs.MsgHeap

namespace Autorun.Server.MsgQueue

open List

variable {h h' : Heap} {q s r m : Nat} {Q : Queue} {R R' : Result} {M : Sent} {loose : Option Nat}
variable {es log : List Event} {value : UInt64} {error : Status}

def Event.subject : Event → Nat
  | .made r | .stored r _ _ | .left r | .got r _ _ | .freed r => r

def account (r : Nat) (log : List Event) : List Event := log.filter (·.subject = r)

def outcomes (es : List Event) : List (UInt64 × Status) := es.filterMap fun
  | .stored _ value error => some (value, error)
  | _ => none

def gots (es : List Event) : List (UInt64 × Status) := es.filterMap fun
  | .got _ value error => some (value, error)
  | _ => none

theorem account_cons (r : Nat) (e : Event) (log : List Event) :
    account r (e :: log) = if e.subject = r then e :: account r log else account r log := by
  unfold account
  rw [filter_cons]
  simp

/-- What the events about a result say, while it is there and after. -/
structure Account (r : Nat) (result : Option Result) (es : List Event) : Prop where
  outcome : (outcomes es).length ≤ 1
  got : (gots es).length ≤ 1
  same : ∀ x ∈ gots es, x ∈ outcomes es
  made : es = [] ∨ .made r ∈ es
  freed : es.count (.freed r) = if result = none ∧ .made r ∈ es then 1 else 0
  settled : result = none → .made r ∈ es → outcomes es ≠ [] ∨ .left r ∈ es
  there : ∀ R, result = some R → .made r ∈ es
  stored : ∀ R, result = some R → outcomes es = if R.replied then [(R.result, R.error)] else []
  waiting : ∀ R, result = some R → R.sender ≠ none → gots es = []
  alone : ∀ R, result = some R → R.sender = none → R.replied = true ∨ .left r ∈ es

/-- Nothing the account speaks of changes, but that the sender of a replied result may go. -/
theorem Account.keep (ha : Account r (some R) es) (hreplied : R'.replied = R.replied)
    (hresult : R'.result = R.result) (herror : R'.error = R.error)
    (hsender : R'.sender = R.sender ∨ (R'.sender = none ∧ R.replied = true)) :
    Account r (some R') es := by
  have hstored := ha.stored R rfl
  have hwaiting := ha.waiting R rfl
  have halone := ha.alone R rfl
  have hfreed := ha.freed
  refine ⟨ha.outcome, ha.got, ha.same, ha.made, by simpa using hfreed, by simp, fun _ _ => ha.there R rfl,
    ?_, ?_, ?_⟩
  all_goals grind

theorem Account.store (ha : Account r (some R) es) (hpending : R.replied = false)
    (hreplied : R'.replied = true) (hresult : R'.result = value) (herror : R'.error = error) :
    Account r (some R') (.stored r value error :: es) := by
  have hstored := ha.stored R rfl
  have hnone : outcomes es = [] := by simpa [hpending] using hstored
  have hone : outcomes (.stored r value error :: es) = [(value, error)] := by
    simp [outcomes] at hnone ⊢
    exact hnone
  have hgots : gots (.stored r value error :: es) = gots es := by simp [gots]
  have hempty : gots es = [] := eq_nil_iff_forall_not_mem.mpr fun x hx => by
    have := ha.same x hx
    simp [hnone] at this
  have hmade := ha.there R rfl
  have hfreed := ha.freed
  refine ⟨by simp [hone], by simp [hgots, hempty], by simp [hgots, hempty], .inr (by simp [hmade]),
    ?_, by simp, fun _ _ => by simp [hmade], ?_, ?_, ?_⟩
  · simpa using hfreed
  · grind
  · simp [hgots, hempty]
  · grind

theorem Account.leave (ha : Account r (some R) es) (hreplied : R'.replied = R.replied)
    (hresult : R'.result = R.result) (herror : R'.error = R.error) (hsender : R'.sender = none) :
    Account r (some R') (.left r :: es) := by
  have hout : outcomes (.left r :: es) = outcomes es := by simp [outcomes]
  have hgots : gots (.left r :: es) = gots es := by simp [gots]
  have hmade := ha.there R rfl
  have hfreed := ha.freed
  refine ⟨hout ▸ ha.outcome, hgots ▸ ha.got, by exact ha.same, .inr (by simp [hmade]),
    by simpa using hfreed, by simp, fun _ _ => by simp [hmade], ?_, ?_, ?_⟩
  · have := ha.stored R rfl
    grind
  · simp_all
  · simp

theorem Account.free (ha : Account r (some R) es) (hsender : R.sender = none) :
    Account r none (.freed r :: es) := by
  have hout : outcomes (.freed r :: es) = outcomes es := by simp [outcomes]
  have hgots : gots (.freed r :: es) = gots es := by simp [gots]
  have hmade := ha.there R rfl
  have hfreed : es.count (.freed r) = 0 := by simpa using ha.freed
  refine ⟨hout ▸ ha.outcome, hgots ▸ ha.got, by exact ha.same, .inr (by simp [hmade]),
    by simp [hfreed, hmade], fun _ _ => ?_, by simp, by simp, by simp, by simp⟩
  rcases ha.alone R rfl hsender with hreplied | hleft
  · left
    simp [hout, ha.stored R rfl, hreplied]
  · exact .inr (by simp [hleft])

theorem Account.give (ha : Account r result es) (hgots : gots es = []) (hout : (value, error) ∈ outcomes es)
    (hmade : .made r ∈ es) (hsender : ∀ R, result = some R → R.sender = none) :
    Account r result (.got r value error :: es) := by
  have hout' : outcomes (.got r value error :: es) = outcomes es := by simp [outcomes]
  have hone : gots (.got r value error :: es) = [(value, error)] := by
    simp [gots] at hgots ⊢
    exact hgots
  have hfreed := ha.freed
  refine ⟨hout' ▸ ha.outcome, by simp [hone], by simpa [hone, hout'] using hout, .inr (by simp [hmade]),
    by simpa using hfreed, fun hn _ => ?_, fun _ _ => by simp [hmade], fun R hR => ?_, fun R hR hs => ?_,
    fun R hR hs => ?_⟩
  · rcases ha.settled hn hmade with h | h
    · exact .inl (hout' ▸ h)
    · exact .inr (by simp [h])
  · rw [hout', ha.stored R hR]
  · exact absurd (hsender R hR) hs
  · rcases ha.alone R hR hs with h | h
    · exact .inl h
    · exact .inr (by simp [h])

theorem Account.make (hreplied : R.replied = false) (hsender : R.sender ≠ none) :
    Account r (some R) [.made r] := by
  constructor <;> simp_all [outcomes, gots]

theorem Account.makeAlone (hreplied : R.replied = false) :
    Account r (some R) [.left r, .made r] := by
  constructor <;> simp_all [outcomes, gots]

/-- The log accounts for every result, and for none that was not made. -/
def LogOk (h : Heap) : Prop :=
  (∀ r, Account r (h.results r) (account r h.log)) ∧ ∀ r, .made r ∈ h.log → r < h.next

theorem account_self (r : Nat) (e : Event) (log : List Event) (he : e.subject = r) :
    account r (e :: log) = e :: account r log := by
  rw [account_cons, if_pos he]

theorem account_others (hes : ∀ e ∈ es, e.subject = r) (hx : x ≠ r) (log : List Event) :
    account x (es ++ log) = account x log := by
  unfold account
  rw [filter_append, filter_eq_nil_iff.mpr, nil_append]
  intro e he heq
  exact hx ((of_decide_eq_true heq).symm.trans (hes e he))

theorem LogOk.change (hl : LogOk h) (hresults : ∀ x, x ≠ r → h'.results x = h.results x)
    (es : List Event) (hlog : h'.log = es ++ h.log) (hes : ∀ e ∈ es, e.subject = r ∧ e ≠ .made r)
    (hnext : h'.next = h.next) (hr : Account r (h'.results r) (account r h'.log)) : LogOk h' := by
  constructor
  · intro x
    by_cases hx : x = r
    · exact hx ▸ hr
    · rw [hresults x hx, hlog, account_others (fun e he => (hes e he).1) hx]
      exact hl.1 x
  · intro x hx
    rw [hlog] at hx
    rw [hnext]
    rcases mem_append.mp hx with hx | hx
    · obtain ⟨rfl, hne⟩ := hes _ hx
      exact absurd rfl hne
    · exact hl.2 x hx

/-- The heap is in order, but for the result in the middle of an operation, and so is the log. -/
structure Ok (h : Heap) (loose : Option Nat := none) : Prop where
  wf : Wf h loose
  log : LogOk h

theorem Ok.loosen (ho : Ok h) (r : Nat) : Ok h (some r) := ⟨ho.wf.loosen r, ho.log⟩

/-- A change to what the account of a result does not speak of. -/
theorem LogOk.retouch (hl : LogOk h) (hr : h.results r = some R)
    (hresults : h'.results = put h.results r (some R')) (hlog : h'.log = h.log) (hnext : h'.next = h.next)
    (hreplied : R'.replied = R.replied) (hresult : R'.result = R.result) (herror : R'.error = R.error)
    (hsender : R'.sender = R.sender ∨ (R'.sender = none ∧ R.replied = true)) : LogOk h' := by
  refine hl.change (r := r) (fun x hx => by simp [hresults, hx]) [] hlog (by simp) hnext ?_
  have ha := hl.1 r
  rw [hr] at ha
  rw [hresults, hlog, put_apply, if_pos rfl]
  exact ha.keep hreplied hresult herror hsender

theorem put_result_self (h : Heap) (r : Nat) (R : Result) : (h.putResult r R).results r = some R := by simp

theorem Ok.mark (ho : Ok h (some r)) (hr : h.results r = some R) (data : List UInt8) (hasDeadline : Bool) :
    Ok (h.putResult r { R with data, hasDeadline }) (some r) := by
  refine ⟨ho.wf.mark hr rfl rfl rfl rfl fun hm => ?_, ho.log.retouch hr rfl rfl rfl rfl rfl rfl (.inl rfl)⟩
  have hpending := ho.wf.pending r
  simpa [field_some hr, hm] using hpending

theorem Wf.sender_queue (hw : Wf h loose) (hr : h.results r = some R) (hs : R.sender = some s) :
    ∃ Q, h.queues s = some Q := by
  rcases (hw.sends s r).mpr ((field_some hr _).trans hs) with hmem | hmem
  · obtain ⟨Q, hQ, -⟩ := queue_of_mem hmem
    exact ⟨Q, hQ⟩
  · obtain ⟨Q, hQ, -⟩ := queue_of_mem hmem
    exact ⟨Q, hQ⟩

theorem Wf.lists_there (hw : Wf h loose) (hQ : h.queues q = some Q)
    (hx : x ∈ Q.sendResults ∨ x ∈ Q.callbackResults) : ∃ R, h.results x = some R ∧ R.sender = some q := by
  refine result_of_some ((hw.sends q x).mp ?_)
  simpa [field_some hQ] using hx

theorem Wf.sent_there (hw : Wf h loose) (hQ : h.queues q = some Q) :
    (∀ x ∈ Q.sent, h.messages x ≠ none) ∧ Q.sent.Nodup ∧ Q.sentTail = Q.sent.getLast? := by
  obtain ⟨-, -, -, hsent, htail⟩ := queue_fields hQ
  refine ⟨fun x hx => (hw.carried q x (hsent ▸ hx)).1, hsent ▸ (hw.nodup q).2.2.2, ?_⟩
  rw [← hsent, ← htail]
  exact hw.tail q

/-- What an operation on one result leaves alone: the other results, the messages but for the
result's callback, the receivers' stacks; and what it does to the queues of others. -/
structure Frame (h h' : Heap) (r : Nat) (callback : Option Nat) : Prop where
  results : ∀ x, x ≠ r → h'.results x = h.results x
  messages : ∀ x, callback ≠ some x → h'.messages x = h.messages x
  holds : ∀ q, h'.holds q = h.holds q
  sends : ∀ q, (h'.sends q).Sublist (h.sends q)
  calls : ∀ q, (h'.calls q).Sublist (h.calls q)
  sent : ∀ q, h'.sent q = h.sent q ∨
    (h.sender r = some q ∧ ∃ m, callback = some m ∧ h'.sent q = h.sent q ++ [m])
  live : ∀ q, h'.queues q = none ↔ h.queues q = none
  head : h'.head = h.head
  next : h'.next = h.next

theorem Frame.trans {h1 : Heap} {c c' : Option Nat} (hf : Frame h h1 r c) (hf' : Frame h1 h' r c')
    (hc : ∀ x, c' = some x → c = some x) (hsent : ∀ q, h'.sent q = h1.sent q) : Frame h h' r c where
  results x hx := (hf'.results x hx).trans (hf.results x hx)
  messages x hx := (hf'.messages x fun he => hx (hc x he)).trans (hf.messages x hx)
  holds q := (hf'.holds q).trans (hf.holds q)
  sends q := (hf'.sends q).trans (hf.sends q)
  calls q := (hf'.calls q).trans (hf.calls q)
  sent q := by
    rw [hsent q]
    exact hf.sent q
  live q := (hf'.live q).trans (hf.live q)
  head := hf'.head.trans hf.head
  next := hf'.next.trans hf.next

theorem Frame.after {c : Option Nat} (hf : Frame (h.putResult r R') h' r c) (hr : h.results r = some R)
    (hs : R'.sender = R.sender) : Frame h h' r c :=
  { hf with
    results := fun x hx => (hf.results x hx).trans (by simp [hx])
    sent := fun q => by simpa [field_some hr, hs] using hf.sent q }

/-- The result may be gone, and its callback with it. -/
structure Freed (h h' : Heap) (r : Nat) (callback : Option Nat) : Prop where
  results : ∀ x, x ≠ r → h'.results x = h.results x
  result : h'.results r = none ∨ h'.results r = h.results r
  messages : ∀ x, callback ≠ some x → h'.messages x = h.messages x
  queues : h'.queues = h.queues
  head : h'.head = h.head
  next : h'.next = h.next
  log : ∃ es, h'.log = es ++ h.log ∧ ∀ e ∈ es, e = .freed r

theorem Freed.frame {c : Option Nat} (hd : Freed h h' r c) : Frame h h' r c := by
  obtain ⟨hresults, -, hmessages, hqueues, hhead, hnext, -⟩ := hd
  refine ⟨hresults, hmessages, fun q => ?_, fun q => ?_, fun q => ?_, fun q => .inl ?_, fun q => ?_, hhead, hnext⟩
  all_goals simp [hqueues]

/-- `free_result` on a result nobody refers to. -/
theorem free_result (ho : Ok h (some r)) (hr : h.results r = some R) (hs : R.sender = none)
    (hv : R.receiver = none) :
    ∃ h', freeResult h r = some h' ∧ Ok h' ∧ Freed h h' r R.callbackMsg ∧ h'.results r = none := by
  have hw : Wf (h.eraseResult r) none := ho.wf.erase ((field_some hr _).trans hs) ((field_some hr _).trans hv)
  have hlog : LogOk ((h.eraseResult r).note (.freed r)) := by
    refine ho.log.change (r := r) (fun x hx => by simp [hx]) [.freed r] rfl (by simp [Event.subject]) rfl ?_
    have ha := ho.log.1 r
    rw [hr] at ha
    change Account r _ (account r (.freed r :: h.log))
    rw [account_self r _ _ rfl, Heap.note_results, Heap.eraseResult_results, put_apply, if_pos rfl]
    exact ha.free hs
  have hes : ∃ es, Event.freed r :: h.log = es ++ h.log ∧ ∀ e ∈ es, e = .freed r := ⟨[.freed r], rfl, by simp⟩
  cases hc : R.callbackMsg with
  | none =>
    refine ⟨(h.eraseResult r).note (.freed r), by simp [freeResult, hr, hc], ⟨{ hw with }, hlog⟩, ?_, by simp⟩
    exact ⟨fun x hx => by simp [hx], .inl (by simp), fun _ _ => rfl, rfl, rfl, rfl, hes⟩
  | some m =>
    have hcm : h.callback r = some m := (field_some hr _).trans hc
    obtain ⟨hthere, -, hnot⟩ := ho.wf.callbacks r m hcm
    obtain ⟨M, hM⟩ := Option.ne_none_iff_exists'.mp hthere
    have hwm : Wf ((h.eraseResult r).eraseMessage m) none := by
      refine hw.eraseMessage hnot fun x hx => ?_
      have hone := ho.wf.callbackOne x r m
      grind
    refine ⟨((h.eraseResult r).eraseMessage m).note (.freed r), ?_, ⟨{ hwm with }, hlog⟩, ?_, by simp⟩
    · simp [freeResult, freeMessage, hr, hc, hM]
      rfl
    · refine ⟨fun x hx => by simp [hx], .inl (by simp), fun x hx => ?_, rfl, rfl, rfl, hes⟩
      have hxm : x ≠ m := fun he => hx (he ▸ rfl)
      simp [hxm]

/-- The heap after a result without a sender is let go of: it goes if it has no receiver either. -/
theorem free_if_done (ho : Ok h (some r)) (hr : h.results r = some R) (hs : R.sender = none) :
    ∃ h', (if R.receiver.isNone then freeResult h r else some h) = some h' ∧ Ok h' ∧
      Freed h h' r R.callbackMsg := by
  cases hv : R.receiver with
  | none =>
    obtain ⟨h', heq, ho', hd, -⟩ := free_result ho hr hs hv
    exact ⟨h', by simpa using heq, ho', hd⟩
  | some q =>
    refine ⟨h, by simp, ⟨ho.wf.tighten fun _ => .inr ?_, ho.log⟩, ?_⟩
    · simp [field_some hr, hv]
    · exact ⟨fun _ _ => rfl, .inr rfl, fun _ _ => rfl, rfl, rfl, rfl, [], rfl, by simp⟩

theorem Wf.detached (hw : Wf h loose) (hr : h.results r = some R) (hs : R.sender = some s)
    (hQ : h.queues s = some Q) (R' : Result) (c : Option Nat) :
    Frame h ((h.putQueue s (Q.lacking r)).putResult r R') r c ∧
      ∀ q, ((h.putQueue s (Q.lacking r)).putResult r R').sends q = (h.sends q).erase r ∧
        ((h.putQueue s (Q.lacking r)).putResult r R').calls q = (h.calls q).erase r ∧
        ((h.putQueue s (Q.lacking r)).putResult r R').sent q = h.sent q := by
  have hq := queue_fields hQ
  have hR := result_fields hr
  have hsub : (Q.sendResults.erase r).Sublist Q.sendResults := erase_sublist
  have hsub' : (Q.callbackResults.erase r).Sublist Q.callbackResults := erase_sublist
  refine ⟨⟨fun x hx => ?_, fun _ _ => rfl, fun q => ?_, fun q => ?_, fun q => ?_, fun q => .inl ?_, fun q => ?_,
    rfl, rfl⟩, fun q => ?_⟩
  case refine_7 =>
    have hmember := hw.sends q r
    grind [erase_of_not_mem]
  all_goals grind

theorem LogOk.detach (hl : LogOk h) (hr : h.results r = some R)
    (hresults : h'.results = put h.results r (some { R with sender := none })) (hlog : h'.log = h.log)
    (hnext : h'.next = h.next) : LogOk (if R.replied then h' else h'.note (.left r)) := by
  split
  · rename_i hreplied
    exact hl.retouch hr hresults hlog hnext rfl rfl rfl (.inr ⟨rfl, hreplied⟩)
  · refine hl.change (r := r) (fun x hx => by simp [hresults, hx]) [.left r] ?_ (by simp [Event.subject]) hnext ?_
    · rw [Heap.note_log, hlog]
      rfl
    · have ha := hl.1 r
      rw [hr] at ha
      rw [Heap.note_results, hresults, put_apply, if_pos rfl, Heap.note_log, account_self r _ _ rfl, hlog]
      exact ha.leave rfl rfl rfl rfl

/-- `remove_result_from_sender`: the result leaves the sender's lists, and goes if its receiver has
let go of it before. -/
theorem remove_result (ho : Ok h (some r)) (hr : h.results r = some R) (hs : R.sender = some s) :
    ∃ h' es, removeResultFromSender h r = some h' ∧ Ok h' ∧ Frame h h' r R.callbackMsg ∧
      (∀ q, h'.sends q = (h.sends q).erase r ∧ h'.calls q = (h.calls q).erase r ∧ h'.sent q = h.sent q) ∧
      h'.log = es ++ h.log ∧ (∀ e ∈ es, (e = .left r ∧ R.replied = false) ∨ e = .freed r) ∧
      (h'.results r = none ∨ h'.results r = some { R with sender := none }) := by
  obtain ⟨hw, hl⟩ := ho
  obtain ⟨Q, hQ⟩ := hw.sender_queue hr hs
  have hthere : ∀ x, x ∈ Q.sendResults ∨ x ∈ Q.callbackResults → h.results x ≠ none := fun x hx => by
    obtain ⟨R, hR, -⟩ := hw.lists_there hQ hx
    simp [hR]
  unfold removeResultFromSender
  simp only [hr, hs, hQ, unlink_result fun x hx => hthere x (.inl hx), unlink_result fun x hx => hthere x (.inr hx),
    Option.bind_eq_bind, Option.bind_some]
  have hw1 := hw.detach hr hs hQ
  obtain ⟨hf1, hlists1⟩ := hw.detached hr hs hQ { R with sender := none } R.callbackMsg
  have hl2 := @LogOk.detach h ((h.putQueue s (Q.lacking r)).putResult r { R with sender := none }) r R hl hr rfl rfl rfl
  obtain ⟨h2, hh2, hw2, hr2, hf2, hlists2, es2, hlog2, hes2⟩ : ∃ h2, (if R.replied then
        (h.putQueue s (Q.lacking r)).putResult r { R with sender := none }
      else ((h.putQueue s (Q.lacking r)).putResult r { R with sender := none }).note (.left r)) = h2 ∧
      Wf h2 (some r) ∧ h2.results r = some { R with sender := none } ∧ Frame h h2 r R.callbackMsg ∧
      (∀ q, h2.sends q = (h.sends q).erase r ∧ h2.calls q = (h.calls q).erase r ∧ h2.sent q = h.sent q) ∧
      ∃ es, h2.log = es ++ h.log ∧ ∀ e ∈ es, e = .left r ∧ R.replied = false := by
    by_cases hreplied : R.replied = true
    · exact ⟨_, if_pos hreplied, hw1, by simp, hf1, hlists1, [], rfl, by simp⟩
    · exact ⟨_, if_neg hreplied, { hw1 with }, by simp, { hf1 with }, hlists1, [.left r], rfl, by simpa using hreplied⟩
  rw [hh2] at hl2
  rw [hh2]
  obtain ⟨h', heq, ho', hd⟩ := free_if_done ⟨hw2, hl2⟩ hr2 rfl
  obtain ⟨es, hlog, hes⟩ := hd.log
  have hqueues := hd.queues
  refine ⟨h', es ++ es2, heq, ho', hf2.trans hd.frame (fun _ h => h) (fun q => by simp [hqueues]), fun q => ?_,
    by rw [hlog, hlog2, append_assoc], fun e he => ?_, hr2 ▸ hd.result⟩
  · simpa [hqueues] using hlists2 q
  · rcases mem_append.mp he with he | he
    · exact .inr (hes e he)
    · exact .inl (hes2 e he)

/-- What a result was before, as far as an outcome depends on it. -/
structure Older (R R' : Result) : Prop where
  replied : R'.replied = false → R.replied = false
  receiver : ∀ q, R'.receiver = some q → R.receiver = some q
  sender : ∀ q, R'.sender = some q → R.sender = some q
  hasDeadline : R'.hasDeadline = true → R.hasDeadline = true
  deadline : R'.deadline = R.deadline

theorem Older.refl (R : Result) : Older R R := ⟨fun h => h, fun _ h => h, fun _ h => h, fun h => h, rfl⟩

theorem Older.trans {R'' : Result} (ho : Older R R') (ho' : Older R' R'') : Older R R'' :=
  ⟨fun h => ho.replied (ho'.replied h), fun q h => ho.receiver q (ho'.receiver q h),
    fun q h => ho.sender q (ho'.sender q h), fun h => ho.hasDeadline (ho'.hasDeadline h), ho'.deadline.trans ho.deadline⟩

/-- One result got its outcome, and no other changed. -/
structure Settled (h h' : Heap) (r : Nat) (value : UInt64) (error : Status) (es : List Event) : Prop where
  log : h'.log = es ++ h.log
  events : ∀ e ∈ es, e = .freed r ∨ e = .stored r value error
  stored : .stored r value error ∈ es
  others : ∀ x, x ≠ r → h'.results x = h.results x
  answered : ∀ R R', h.results r = some R → h'.results r = some R' → R'.replied = true ∧ Older R R'

theorem Settled.after {h1 : Heap} (hs : Settled h1 h' r value error es) (hr : h.results r = some R)
    (hresults : h1.results = put h.results r (some R')) (hlog : h1.log = h.log) (hold : Older R R') :
    Settled h h' r value error es := by
  refine ⟨hlog ▸ hs.log, hs.events, hs.stored, fun x hx => by simp [hs.others x hx, hresults, hx], ?_⟩
  intro R0 R1 hR0 hR1
  cases hr.symm.trans hR0
  obtain ⟨hreplied, ho⟩ := hs.answered R' R1 (by simp [hresults]) hR1
  exact ⟨hreplied, hold.trans ho⟩

def Result.answer (R : Result) (value : UInt64) (error : Status) : Result :=
  { R with result := value, error, replied := true, hasDeadline := false }

theorem Settled.of_answer {h1 : Heap} (hr : h.results r = some R) (hpending : R.replied = false)
    (hresults : h1.results = put h.results r (some (R.answer value error)))
    (hlog : h1.log = .stored r value error :: h.log) (hothers : ∀ x, x ≠ r → h'.results x = h1.results x)
    (hresult : ∀ R', h'.results r = some R' → R'.replied = true ∧ Older (R.answer value error) R')
    (hlog' : h'.log = es ++ h1.log) (hes : ∀ e ∈ es, e = .freed r) :
    Settled h h' r value error (es ++ [.stored r value error]) := by
  refine ⟨by simp [hlog', hlog], fun e he => ?_, by simp, fun x hx => ?_, fun R0 R' hR0 hR' => ?_⟩
  · rcases mem_append.mp he with he | he
    · exact .inl (hes e he)
    · exact .inr (mem_singleton.mp he)
  · simp [hothers x hx, hresults, hx]
  · cases hr.symm.trans hR0
    obtain ⟨hreplied, ho⟩ := hresult R' hR'
    exact ⟨hreplied, fun _ => hpending, ho.receiver, ho.sender, fun h => absurd (ho.hasDeadline h) nofun, ho.deadline⟩

theorem put_touch (h : Heap) (s r : Nat) (Q : Queue) (R : Result) (bits : BitVec 32) :
    ((h.putQueue s Q).putResult r R).putQueue s (Q.touch bits) =
      (h.putQueue s (Q.touch bits)).putResult r R := by
  simp only [Heap.putQueue, Heap.putResult, Heap.mk.injEq, and_true]
  funext i
  simp only [put_apply]
  split <;> rfl

theorem touch_frame (hQ : h.queues q = some Q) (bits : BitVec 32) (c : Option Nat) :
    Frame h (h.putQueue q (Q.touch bits)) r c := by
  have hq := queue_fields hQ
  refine ⟨fun _ _ => rfl, fun _ _ => rfl, fun p => ?_, fun p => ?_, fun p => ?_, fun p => .inl ?_, fun p => ?_, rfl, rfl⟩
  all_goals grind [Queue.touch]

/-- The callback of a result is queued to its sender, and the sender lets go of the result. -/
theorem store_callback (ho : Ok h (some r)) (hr : h.results r = some R) (hreplied : R.replied = true)
    (hs : R.sender = some s) (hc : R.callbackMsg = some m) (hQ : h.queues s = some Q) (hplain : M.result = none) :
    ∃ h' es, removeResultFromSender (((h.putMessage m M).putQueue s ((Q.plus m).touch QS_SENDMESSAGE)).putResult r
        { R with callbackMsg := none }) r = some h' ∧ Ok h' ∧
      Frame h h' r (some m) ∧ h'.log = es ++ h.log ∧ (∀ e ∈ es, e = .freed r) ∧
      ∀ R', h'.results r = some R' → R'.replied = true ∧ Older R R' := by
  obtain ⟨h1, hh1⟩ : ∃ h1, ((h.putMessage m M).putQueue s ((Q.plus m).touch QS_SENDMESSAGE)).putResult r
    { R with callbackMsg := none } = h1 := ⟨_, rfl⟩
  have hw1 : Wf h1 (some r) := by
    rw [← hh1, ← put_touch]
    exact (ho.wf.requeue hr hQ hc hplain).touch (by simp) QS_SENDMESSAGE
  have hframe : Frame h h1 r (some m) := by
    have hq := queue_fields hQ
    have hR := result_fields hr
    subst hh1
    refine ⟨fun x hx => ?_, fun x hx => ?_, fun q => ?_, fun q => ?_, fun q => ?_, fun q => ?_, fun q => ?_, rfl, rfl⟩
    all_goals grind [Queue.touch]
  have hresults1 : h1.results = put h.results r (some { R with callbackMsg := none }) := by rw [← hh1]; rfl
  have hlog1 : h1.log = h.log := by rw [← hh1]; rfl
  have ho1 : Ok h1 (some r) := ⟨hw1, ho.log.retouch hr hresults1 hlog1 hframe.next rfl rfl rfl (.inl rfl)⟩
  obtain ⟨h', es, heq, ho', hf, hlists, hlog, hes, hresult⟩ :=
    @remove_result h1 s r { R with callbackMsg := none } ho1 (by simp [hresults1]) hs
  rw [hh1]
  refine ⟨h', es, heq, ho', hframe.trans hf (by simp) fun q => (hlists q).2.2, hlog1 ▸ hlog, fun e he => ?_, fun R' hR' => ?_⟩
  · rcases hes e he with ⟨-, hpending⟩ | he
    · exact absurd hpending (by simp [hreplied])
    · exact he
  · rcases hresult with hnone | hsome
    · cases hnone.symm.trans hR'
    · cases hsome.symm.trans hR'
      exact ⟨hreplied, fun h => h, fun _ h => h, by simp, fun h => h, rfl⟩

theorem store_result (ho : Ok h (some r)) (hr : h.results r = some R) (hpending : R.replied = false)
    (hmsg : R.msg = none) (value : UInt64) (error : Status) :
    ∃ h' es, storeResult h r value error = some h' ∧ Ok h' ∧ Frame h h' r R.callbackMsg ∧
      Settled h h' r value error es := by
  have hanswer : { R with result := value, error, replied := true, hasDeadline := false } =
      R.answer value error := rfl
  unfold storeResult
  simp only [hr, Option.bind_eq_bind, Option.bind_some, hanswer]
  have hw1 : Wf (h.putResult r (R.answer value error)) (some r) :=
    ho.wf.mark hr rfl rfl rfl rfl fun hm => absurd hmsg hm
  have hr1 : (h.putResult r (R.answer value error)).results r = some (R.answer value error) := by simp
  have hl1 : LogOk ((h.putResult r (R.answer value error)).note (.stored r value error)) := by
    refine ho.log.change (r := r) (fun x hx => by simp [hx]) [.stored r value error] rfl (by simp [Event.subject]) rfl ?_
    have ha := ho.log.1 r
    rw [hr] at ha
    rw [Heap.note_results, hr1, Heap.note_log, account_self r _ _ rfl]
    exact ha.store hpending rfl rfl rfl
  have ho1 : Ok ((h.putResult r (R.answer value error)).note (.stored r value error)) (some r) := ⟨{ hw1 with }, hl1⟩
  have hframe : ∀ h' c, Frame ((h.putResult r (R.answer value error)).note (.stored r value error)) h' r c →
      Frame h h' r c := fun h' c hf =>
    (show Frame (h.putResult r (R.answer value error)) h' r c from { hf with }).after hr rfl
  generalize hh1 : (h.putResult r (R.answer value error)).note (.stored r value error) = h1 at *
  have hresults1 : h1.results = put h.results r (some (R.answer value error)) := by rw [← hh1]; rfl
  have hlog1 : h1.log = .stored r value error :: h.log := by rw [← hh1]; rfl
  replace hr1 : h1.results r = some (R.answer value error) := by simp [hresults1]
  have hold : Older (R.answer value error) (R.answer value error) := .refl _
  cases hs : R.sender with
  | none =>
    obtain ⟨h', heq, ho', hd⟩ := free_if_done ho1 hr1 hs
    obtain ⟨es, hlog, hes⟩ := hd.log
    refine ⟨h', _, heq, ho', hframe h' _ hd.frame, .of_answer hr hpending hresults1 hlog1 hd.results (fun R' hR' => ?_)
      hlog hes⟩
    rcases hd.result with hnone | hsome
    · cases hnone.symm.trans hR'
    · cases (hsome.trans hr1).symm.trans hR'
      exact ⟨rfl, hold⟩
  | some s =>
    obtain ⟨Q, hQ⟩ := ho1.wf.sender_queue hr1 hs
    simp only [hQ, Option.bind_some]
    cases hc : R.callbackMsg with
    | none =>
      have hrefers : ∀ h' : Heap, h'.results = h1.results → h'.results r ≠ none →
          h'.sender r ≠ none ∨ h'.receiver r ≠ none := by
        intro h' hsame _
        simp [hsame, field_some hr1, Result.answer, hs]
      have hsettled : ∀ h' : Heap, h'.results = h1.results → h'.log = h1.log →
          Settled h h' r value error ([] ++ [.stored r value error]) := by
        intro h' hsame hlog
        refine .of_answer hr hpending hresults1 hlog1 (fun x _ => by rw [hsame]) (fun R' hR' => ?_) hlog (by simp)
        cases hr1.symm.trans (hsame ▸ hR')
        exact ⟨rfl, hold⟩
      dsimp only
      split
      · exact ⟨_, _, rfl, ⟨(ho1.wf.touch hQ _).tighten (hrefers _ rfl), ho1.log⟩,
          hframe _ _ (touch_frame hQ _ _), hsettled _ rfl rfl⟩
      · have hsame : Freed h1 h1 r none :=
          ⟨fun _ _ => rfl, .inr rfl, fun _ _ => rfl, rfl, rfl, rfl, [], rfl, by simp⟩
        exact ⟨h1, _, rfl, ⟨ho1.wf.tighten (hrefers _ rfl), ho1.log⟩, hframe _ _ hsame.frame, hsettled _ rfl rfl⟩
    | some m =>
      obtain ⟨hthere, howner, -⟩ := ho1.wf.callbacks r m ((field_some hr1 _).trans hc)
      obtain ⟨M, hM⟩ := Option.ne_none_iff_exists'.mp hthere
      obtain ⟨hsent, hnodup, htail⟩ := ho1.wf.sent_there hQ
      have happend : appendSent (h1.putMessage m { M with data := callbackData M.data value }).messages Q m =
          some (Q.plus m) := by
        refine append_sent (fun x hx => ?_) hnodup htail
        grind
      simp only [hM, Option.bind_some, happend]
      obtain ⟨h', es, heq, ho', hf, hlog, hes, hresult⟩ :=
        @store_callback h1 s r m Q _ { M with data := callbackData M.data value } ho1 hr1 rfl hs hc hQ
          ((field_some hM Sent.result).symm.trans howner)
      rw [show (R.answer value error).sender = some s from hs] at heq
      exact ⟨h', _, heq, ho', hframe h' _ hf,
        .of_answer hr hpending hresults1 hlog1 (fun x hx => hf.results x hx) hresult hlog hes⟩

theorem unlink_sent (hw : Wf h loose) (hQ : h.queues q = some Q) (m : Nat) :
    unlinkSent h q m = some (h.putQueue q (Q.without m)) := by
  obtain ⟨hsent, hnodup, htail⟩ := hw.sent_there hQ
  have hloop : unlinkSentLoop h.messages m Q.sentTail none Q.sent =
      some (Q.sent.erase m, (Q.sent.erase m).getLast?.or none) :=
    unlink_sent_loop hsent hnodup (by simp [htail])
  simp [unlinkSent, hQ, hloop]

theorem Wf.taken (hw : Wf h loose) (hmem : m ∈ h.sent q) (hQ : h.queues q = some Q)
    (hsent : ∀ p, h'.sent p = (h.putQueue q (Q.without m)).sent p)
    (hcallback : ∀ x, h'.callback x = h.callback x) :
    (∀ p, m ∉ h'.sent p) ∧ ∀ x, h'.callback x ≠ some m := by
  constructor
  · intro p hp
    rw [hsent] at hp
    have hone := hw.sentOne p q m
    have hnodup := (hw.nodup q).2.2.2
    have hq := queue_fields hQ
    grind
  · intro x hx
    rw [hcallback] at hx
    exact (hw.callbacks x m hx).2.2 q hmem

theorem put_over (h : Heap) (q r : Nat) (Q Q' : Queue) (R : Result) :
    ((h.putQueue q Q).putResult r R).putQueue q Q' = (h.putResult r R).putQueue q Q' := by
  simp only [Heap.putQueue, Heap.putResult, Heap.mk.injEq, and_true]
  funext i
  simp only [put_apply]
  split <;> rfl

theorem put_erased (h : Heap) (q r m : Nat) (Q : Queue) (R R' : Result) :
    (((h.putResult r R).putQueue q Q).eraseMessage m).putResult r R' =
      ((h.putQueue q Q).putResult r R').eraseMessage m := by
  simp only [Heap.putQueue, Heap.putResult, Heap.eraseMessage, Heap.mk.injEq, and_true, true_and]
  funext i
  simp only [put_apply]
  split <;> rfl

theorem free_message (hM : h.messages m = some M) : freeMessage h m = some (h.eraseMessage m) := by
  simp [freeMessage, hM]

theorem receive_ok (ho : Ok h) (hQ : h.queues q = some Q) :
    ∃ answer h', receive h q = some (answer, h') ∧ Ok h' ∧ h'.log = h.log := by
  obtain ⟨hw, hl⟩ := ho
  unfold receive
  simp only [hQ, Option.bind_eq_bind, Option.bind_some]
  cases hsent : Q.sent with
  | nil => exact ⟨none, h, rfl, ⟨hw, hl⟩, rfl⟩
  | cons m rest =>
    have hmem : m ∈ h.sent q := by simp [field_some hQ, hsent]
    obtain ⟨hthere, hback⟩ := hw.carried q m hmem
    obtain ⟨M, hM⟩ := Option.ne_none_iff_exists'.mp hthere
    simp only [unlink_sent hw hQ, Option.bind_some, Heap.putQueue_messages, hM]
    cases hres : M.result with
    | none =>
      have hw1 := hw.takePlain hQ ((field_some hM _).trans hres)
      have hM1 : (h.putQueue q (Q.without m)).messages m = some M := hM
      obtain ⟨hgone, hcall⟩ := hw.taken hmem hQ (fun _ => rfl) fun _ => rfl
      simp only [free_message hM1]
      exact ⟨_, _, rfl, ⟨hw1.eraseMessage hgone hcall, hl⟩, rfl⟩
    | some r =>
      obtain ⟨hmsg, hreceiver⟩ := hback r ((field_some hM _).trans hres)
      obtain ⟨R, hR, hRm⟩ := result_of_some hmsg
      have hRr : R.receiver = some q := (field_some hR _).symm.trans hreceiver
      have hw1 := hw.deliver hQ hR hRm hRr
      obtain ⟨hgone, hcall⟩ := @Wf.taken h ((h.putResult r { R with msg := none }).putQueue q
          { Q.without m with recvResult := r :: Q.recvResult }) q m Q _ hw hmem hQ (fun p => by simp) fun x => by
        have := result_fields hR
        grind
      have hM1 : ((h.putResult r { R with msg := none }).putQueue q
          { Q.without m with recvResult := r :: Q.recvResult }).messages m = some M := hM
      simp only [Heap.putQueue_results, hR, Heap.putQueue_queues, put_apply, if_true, Option.bind_some,
        put_over, free_message hM1]
      exact ⟨_, _, rfl, ⟨hw1.eraseMessage hgone hcall, hl.retouch hR rfl rfl rfl rfl rfl rfl (.inl rfl)⟩, rfl⟩

theorem Wf.held (hw : Wf h loose) (hQ : h.queues q = some Q) (hstack : Q.recvResult = r :: rest) :
    ∃ R, h.results r = some R ∧ R.receiver = some q ∧ R.msg = none := by
  obtain ⟨hreceiver, hmsg⟩ := (hw.holds q r).mp (by simp [field_some hQ, hstack])
  obtain ⟨R, hR, hRr⟩ := result_of_some hreceiver
  exact ⟨R, hR, hRr, (field_some hR _).symm.trans hmsg⟩

theorem reply_end (ho : Ok h (some r)) (hR : h.results r = some R) (hmsg : R.msg = none) (remove : Bool)
    (hremove : remove = true ↔ R.receiver = none) (value : UInt64) (error : Status) (data : List UInt8) (memory : Bool) :
    ∃ h' es, (if remove ∧ R.sender.isNone then freeResult h r
      else if !R.replied then
        storeResult (h.putResult r (if memory then { R with data } else R)) r value error
      else some h) = some h' ∧ Ok h' ∧ Frame h h' r R.callbackMsg ∧ h'.log = es ++ h.log ∧
      (∀ e ∈ es, e = .freed r ∨ (e = .stored r value error ∧ R.replied = false)) ∧
      (R.replied = false → R.sender ≠ none ∨ remove = false → .stored r value error ∈ es) ∧
      ∀ R', h'.results r = some R' → Older R R' := by
  split
  · rename_i hnone
    have hs : R.sender = none := Option.isNone_iff_eq_none.mp hnone.2
    obtain ⟨h', heq, ho', hd, hgone⟩ := free_result ho hR hs (hremove.mp hnone.1)
    obtain ⟨es, hlog, hes⟩ := hd.log
    refine ⟨h', es, heq, ho', hd.frame, hlog, fun e he => .inl (hes e he), fun _ h => ?_, fun R' hR' => ?_⟩
    · simp [hs, hnone.1] at h
    · cases hgone.symm.trans hR'
  · rename_i hsome
    split
    · rename_i hpending
      have hpending : R.replied = false := by simpa using hpending
      obtain ⟨data', hdata⟩ : ∃ data', (if memory then { R with data } else R) = { R with data := data' } := by
        cases memory with
        | true => exact ⟨data, rfl⟩
        | false => exact ⟨R.data, rfl⟩
      rw [hdata]
      obtain ⟨h', es, heq, ho', hf, hs⟩ :=
        store_result (ho.mark hR data' R.hasDeadline) (put_result_self ..) hpending hmsg value error
      have hs' := hs.after hR rfl rfl { Older.refl R with }
      refine ⟨h', es, heq, ho', hf.after hR rfl, hs'.log, fun e he => ?_, fun _ _ => hs'.stored,
        fun R' hR' => (hs'.answered R R' hR hR').2⟩
      exact (hs'.events e he).imp_right fun he => ⟨he, hpending⟩
    · rename_i hdone
      have hreplied : R.replied = true := by simpa using hdone
      have hsame : Freed h h r R.callbackMsg :=
        ⟨fun _ _ => rfl, .inr rfl, fun _ _ => rfl, rfl, rfl, rfl, [], rfl, by simp⟩
      refine ⟨h, [], rfl, ⟨ho.wf.tighten fun _ => ?_, ho.log⟩, hsame.frame, rfl, by simp,
        fun h => by simp [hreplied] at h, fun R' hR' => ?_⟩
      · have hR' := result_fields hR
        grind
      · cases hR.symm.trans hR'
        exact .refl R

/-- `horizon_msgq_reply` with something on the stack, which loses its top when the window procedure
has returned. -/
theorem reply_ok (ho : Ok h) (hQ : h.queues q = some Q) (hstack : Q.recvResult = r :: rest)
    (hR : h.results r = some R) (value : UInt64) (error : Status) (remove : Bool) (data : List UInt8) (memory : Bool) :
    ∃ h' es, reply h q value error remove data memory = some h' ∧ Ok h' ∧ h'.log = es ++ h.log ∧
      (∀ e ∈ es, e = .freed r ∨ (e = .stored r value error ∧ R.replied = false)) ∧
      (R.replied = false → R.sender ≠ none → .stored r value error ∈ es) ∧
      (remove = true → Frame (h.putQueue q { Q with recvResult := rest }) h' r R.callbackMsg ∧
        ∀ R', h'.results r = some R' → Older R R') := by
  obtain ⟨R0, hR0, hreceiver, hmsg⟩ := ho.wf.held hQ hstack
  cases hR.symm.trans hR0
  unfold reply
  simp only [hQ, hstack, hR, Option.bind_eq_bind, Option.bind_some]
  cases remove with
  | true =>
    have ho1 : Ok ((h.putQueue q { Q with recvResult := rest }).putResult r { R with receiver := none }) (some r) :=
      ⟨ho.wf.release hR hQ hstack, ho.log.retouch hR rfl rfl rfl rfl rfl rfl (.inl rfl)⟩
    obtain ⟨h', es, heq, ho', hf, hlog, hes, hstored, hold⟩ :=
      reply_end ho1 (put_result_self ..) hmsg true (by simp) value error data memory
    have hgone : Older R { R with receiver := none } := ⟨fun h => h, nofun, fun _ h => h, fun h => h, rfl⟩
    exact ⟨h', es, by simpa using heq, ho', hlog, hes, fun hp hs => hstored hp (.inl hs), fun _ =>
      ⟨hf.after (show Heap.results _ r = some R from hR) rfl, fun R' hR' => hgone.trans (hold R' hR')⟩⟩
  | false =>
    obtain ⟨h', es, heq, ho', -, hlog, hes, hstored, -⟩ := reply_end
      ((ho.loosen r).mark hR R.data R.hasDeadline) (put_result_self ..) hmsg false (by simp [hreceiver]) value error data memory
    exact ⟨h', es, by simpa using heq, ho', hlog, hes, fun hp _ => hstored hp (.inr rfl), nofun⟩

/-- No outcome is stored, and only what `leaves` allows loses its sender before it has one. -/
structure Quiet (leaves : Nat → Prop) (es : List Event) : Prop where
  stored : ∀ x v e, .stored x v e ∉ es
  left : ∀ x, .left x ∈ es → leaves x

theorem Quiet.nil (leaves : Nat → Prop) : Quiet leaves [] := ⟨by simp, by simp⟩

/-- A result let go of has neither a new outcome nor been given one. -/
theorem account_quiet (hes : ∀ e ∈ es, (e = .left r ∧ p) ∨ e = .freed r) (log : List Event) :
    outcomes (account r (es ++ log)) = outcomes (account r log) ∧
      gots (account r (es ++ log)) = gots (account r log) := by
  have happend : account r (es ++ log) = account r es ++ account r log := filter_append ..
  have hnone : outcomes (account r es) = [] ∧ gots (account r es) = [] := by
    unfold outcomes gots account
    simp only [filterMap_eq_nil_iff, mem_filter]
    constructor
    all_goals
      rintro e ⟨he, -⟩
      rcases hes e he with ⟨rfl, -⟩ | rfl <;> rfl
  unfold outcomes gots at *
  rw [happend, filterMap_append, filterMap_append, hnone.1, hnone.2]
  exact ⟨rfl, rfl⟩

theorem LogOk.give (hl : LogOk h) (hr : h.results r = some R) (hs : R.sender ≠ none)
    (hreplied : R.replied = true) (hl' : LogOk h') (hlog : h'.log = es ++ h.log)
    (hes : ∀ e ∈ es, (e = .left r ∧ p) ∨ e = .freed r)
    (hresult : ∀ R', h'.results r = some R' → R'.sender = none) :
    LogOk (h'.note (.got r R.result R.error)) := by
  have ha := hl.1 r
  rw [hr] at ha
  obtain ⟨hout, hgot⟩ := account_quiet hes h.log
  rw [← hlog] at hout hgot
  have hmade : Event.made r ∈ account r h'.log := by
    have := ha.there R rfl
    rw [hlog]
    unfold account at *
    rw [filter_append]
    exact mem_append_right _ this
  refine hl'.change (r := r) (fun _ _ => rfl) [.got r R.result R.error] rfl (by simp [Event.subject]) rfl ?_
  change Account r (h'.results r) (account r (.got r R.result R.error :: h'.log))
  rw [account_self r _ _ rfl]
  refine (hl'.1 r).give (hgot.trans (ha.waiting R rfl hs)) ?_ hmade hresult
  rw [hout, ha.stored R rfl, if_pos hreplied]
  simp

/-- The last part of `get_message_reply`: another reply may be waiting. -/
theorem next_reply (ho : Ok h) (hQ : h.queues q = some Q) (answer : Reply) :
    ∃ h', (match Q.sendResults with
      | [] => some (answer, h)
      | first :: _ => do
        let result ← h.results first
        if result.replied then some (answer, h.putQueue q (Q.touch QS_SMRESULT))
        else some (answer, h)) = some (answer, h') ∧ Ok h' ∧ h'.log = h.log := by
  cases hlist : Q.sendResults with
  | nil => exact ⟨h, rfl, ho, rfl⟩
  | cons first rest =>
    obtain ⟨R, hR, -⟩ := ho.wf.lists_there hQ (x := first) (.inl (by simp [hlist]))
    simp only [hR, Option.bind_eq_bind, Option.bind_some]
    split
    · exact ⟨_, rfl, ⟨ho.wf.touch hQ _, ho.log⟩, rfl⟩
    · exact ⟨h, rfl, ho, rfl⟩

theorem get_reply_ok (ho : Ok h) (hQ : h.queues q = some Q) (cancel : Bool) :
    ∃ answer h' es, getReply h q cancel = some (answer, h') ∧ Ok h' ∧ h'.log = es ++ h.log ∧
      Quiet (fun x => cancel = true ∧ ∃ R, h.results x = some R ∧ R.sender = some q) es := by
  unfold getReply
  simp only [hQ, Option.bind_eq_bind, Option.bind_some]
  cases hlist : Q.sendResults with
  | nil => exact ⟨{}, h, [], rfl, ho, rfl, .nil _⟩
  | cons r rest =>
    obtain ⟨R, hR, hs⟩ := ho.wf.lists_there hQ (x := r) (.inl (by simp [hlist]))
    simp only [hR, Option.bind_some]
    split
    · exact ⟨{}, h, [], rfl, ho, rfl, .nil _⟩
    · rename_i hgo
      by_cases hreplied : R.replied = true
      case neg =>
        obtain ⟨h1, es, heq, ho1, hf, -, hlog, hes, hresult⟩ := remove_result (ho.loosen r) hR hs
        obtain ⟨Q1, hQ1⟩ := Option.ne_none_iff_exists'.mp (mt (hf.live q).mp (by simp [hQ]))
        simp only [if_neg hreplied, heq, hQ1, Option.bind_some]
        obtain ⟨h', heq', ho', hlog'⟩ := next_reply ho1 hQ1 {}
        refine ⟨_, h', es, heq', ho', hlog'.trans hlog, fun x v e he => ?_, fun x he => ?_⟩
        · rcases hes _ he with ⟨he, -⟩ | he <;> cases he
        · rcases hes _ he with ⟨he, -⟩ | he <;> cases he
          exact ⟨by simpa [hreplied] using hgo, R, hR, hs⟩
      case pos =>
        have ho0 := (ho.loosen r).mark hR [] R.hasDeadline
        obtain ⟨h1, es, heq, ho1, hf, -, hlog, hes, hresult⟩ := remove_result ho0 (put_result_self ..) hs
        obtain ⟨Q1, hQ1⟩ := Option.ne_none_iff_exists'.mp (mt (hf.live q).mp (by simp [hQ]))
        have hgone : ∀ R', h1.results r = some R' → R'.sender = none := by
          intro R' hR'
          rcases hresult with hnone | hsome
          · cases hnone.symm.trans hR'
          · cases hsome.symm.trans hR'
            rfl
        have hlg := ho0.log.give (put_result_self ..) (by simp [hs]) hreplied ho1.log hlog hes hgone
        simp only [if_pos hreplied, heq, Heap.note_queues, hQ1, Option.bind_some]
        have ho2 : Ok (h1.note (.got r R.result R.error)) := ⟨{ ho1.wf with }, hlg⟩
        obtain ⟨h', heq', ho', hlog'⟩ := next_reply ho2 hQ1
          { status := R.error, value := R.result, data := R.data }
        refine ⟨_, h', .got r R.result R.error :: es, heq', ho', ?_, fun x v e he => ?_, fun x he => ?_⟩
        · rw [hlog', Heap.note_log, hlog]
          rfl
        · rcases mem_cons.mp he with he | he
          · cases he
          · rcases hes _ he with ⟨he, -⟩ | he <;> cases he
        · rcases mem_cons.mp he with he | he
          · cases he
          · rcases hes _ he with ⟨-, hrep⟩ | he
            · exact absurd hrep (by simp [hreplied])
            · cases he

theorem LogOk.unused (hl : LogOk h) (hr : h.next ≤ r) : account r h.log = [] := by
  rcases (hl.1 r).made with hnil | hmade
  · exact hnil
  · exact absurd (hl.2 r (mem_filter.mp hmade).1) (Nat.not_lt.mpr hr)

theorem LogOk.make (hl : LogOk h) (es : List Event) (hempty : account r h.log = []) (hlt : r < h.next)
    (hresults : ∀ x, x ≠ r → h'.results x = h.results x) (hnext : h'.next = h.next) (hlog : h'.log = es ++ h.log)
    (hes : ∀ e ∈ es, e.subject = r) (hr : Account r (h'.results r) es) : LogOk h' := by
  have hself : account r (es ++ h.log) = es := by
    unfold account at *
    rw [filter_append, hempty, append_nil]
    exact filter_eq_self.mpr fun e he => decide_eq_true (hes e he)
  constructor
  · intro x
    by_cases hx : x = r
    · rw [hx, hlog, hself]
      exact hr
    · rw [hresults x hx, hlog, account_others hes hx]
      exact hl.1 x
  · intro x hx
    rw [hnext]
    rw [hlog] at hx
    rcases mem_append.mp hx with hx | hx
    · exact (show x = r from hes _ hx) ▸ hlt
    · exact hl.2 x hx

theorem Ok.allot (ho : Ok h) (n : Nat) : Ok (h.allot n) :=
  ⟨ho.wf.allot n, ho.log.1, fun r hr => Nat.lt_add_right n (ho.log.2 r hr)⟩

/-- A message and a result that nothing knows of yet. -/
structure Unsent (h : Heap) (m r : Nat) (R : Result) : Prop where
  nowhere : Nowhere h m
  carries : ∃ M, h.messages m = some M ∧ M.result = some r
  new : h.results r = none
  unused : account r h.log = []
  lt : r < h.next
  msg : R.msg = some m
  pending : R.replied = false
  callback : ∀ c, R.callbackMsg = some c → c ≠ m ∧ h.messages c ≠ none ∧ h.owner c = none ∧ Nowhere h c

theorem Unsent.queued (hu : Unsent h m r R) (hw : Wf h none) (hv : R.receiver = some q) (hQ : h.queues q = some Q) :
    Wf ((h.putResult r { R with sender := none }).putQueue q (Q.plus m)) none := by
  obtain ⟨M, hM, hMr⟩ := hu.carries
  exact hw.attach hQ hM hMr hu.nowhere hu.new hu.lt hu.msg hv rfl hu.pending hu.callback

theorem Unsent.listed {S : Queue} (hu : Unsent h m r R) (hw : Wf h none) (hv : R.receiver = some q)
    (hs : R.sender = some s) (hS : h.queues s = some S) (hQ : h.queues q ≠ none)
    (hQ1 : ((h.putResult r R).putQueue s (S.enlist r R.callbackMsg)).queues q = some Q) :
    Wf (((h.putResult r R).putQueue s (S.enlist r R.callbackMsg)).putQueue q (Q.plus m)) none := by
  obtain ⟨Q0, hQ0⟩ := Option.ne_none_iff_exists'.mp hQ
  have hw1 := hu.queued hw hv hQ0
  obtain ⟨S1, hS1⟩ : ∃ S1, ((h.putResult r { R with sender := none }).putQueue q (Q0.plus m)).queues s = some S1 := by
    by_cases hqs : s = q <;> simp [hqs, hS]
  have hself : { R with sender := some s } = R := by rw [← hs]
  refine (hw1.enlist (put_result_self ..) rfl hS1).same ?_ rfl ?_ rfl rfl
  · funext i
    grind
  · funext i
    grind

theorem Wf.touched (hw : Wf (h.putQueue q Q) loose) (bits : BitVec 32) :
    Wf (h.putQueue q (Q.touch bits)) loose := by
  refine (hw.touch (show (h.putQueue q Q).queues q = some Q by simp) bits).same ?_ rfl rfl rfl rfl
  funext i
  grind

/-- What `horizon_msgq_send` does once a message and its result are allocated. -/
theorem link_message (ho : Ok h) (hu : Unsent h m r R) (hv : R.receiver = some q)
    (hQ : h.queues q ≠ none) (hS : ∀ s, R.sender = some s → h.queues s ≠ none) :
    ∃ h1 h2 es, (match R.sender with
      | some s => do
        let queue ← ((h.putResult r R).note (.made r)).queues s
        some (((h.putResult r R).note (.made r)).putQueue s (queue.enlist r R.callbackMsg))
      | none => some (((h.putResult r R).note (.made r)).note (.left r))) = some h1 ∧
      (do
        let queue ← h1.queues q
        let queue ← appendSent h1.messages queue m
        some (Status.success, h1.putQueue q (queue.touch QS_SENDMESSAGE))) = some (.success, h2) ∧
      Ok h2 ∧ h2.log = es ++ h.log ∧ Quiet (fun x => R.sender = none ∧ x = r) es := by
  obtain ⟨Q, hQ0⟩ := Option.ne_none_iff_exists'.mp hQ
  obtain ⟨hsent, hnodup, htail⟩ := ho.wf.sent_there hQ0
  cases hs : R.sender with
  | none =>
    have hself : { R with sender := none } = R := by rw [← hs]
    have hw := hu.queued ho.wf hv hQ0
    rw [hself] at hw
    have hl : LogOk (((h.putResult r R).note (.made r)).note (.left r)) :=
      ho.log.make [.left r, .made r] hu.unused hu.lt (fun x hx => by simp [hx]) rfl rfl (by simp [Event.subject])
        (by simpa using .makeAlone hu.pending)
    refine ⟨_, (((h.putResult r R).note (.made r)).note (.left r)).putQueue q ((Q.plus m).touch QS_SENDMESSAGE),
      [.left r, .made r], rfl, ?_, ⟨{ hw.touched QS_SENDMESSAGE with }, hl⟩, rfl, by simp, by simp⟩
    simp [hQ0, append_sent hsent hnodup htail]
  | some s =>
    obtain ⟨S, hS⟩ := Option.ne_none_iff_exists'.mp (hS s hs)
    obtain ⟨Q1, hQ1, hsent1, htail1⟩ : ∃ Q1, ((h.putResult r R).putQueue s (S.enlist r R.callbackMsg)).queues q =
        some Q1 ∧ Q1.sent = Q.sent ∧ Q1.sentTail = Q.sentTail := by
      by_cases hqs : q = s <;> simp_all
    have hw := hu.listed ho.wf hv hs hS hQ hQ1
    have hl : LogOk (((h.putResult r R).note (.made r)).putQueue s (S.enlist r R.callbackMsg)) :=
      ho.log.make [.made r] hu.unused hu.lt (fun x hx => by simp [hx]) rfl rfl (by simp [Event.subject])
        (by simpa using .make hu.pending (by simp [hs]))
    refine ⟨((h.putResult r R).note (.made r)).putQueue s (S.enlist r R.callbackMsg),
      (((h.putResult r R).note (.made r)).putQueue s (S.enlist r R.callbackMsg)).putQueue q
        ((Q1.plus m).touch QS_SENDMESSAGE), [.made r], by simp [hS], ?_,
      ⟨{ hw.touched QS_SENDMESSAGE with }, hl⟩, rfl, by simp, by simp⟩
    have happend : appendSent h.messages Q1 m = some (Q1.plus m) :=
      append_sent (hsent1 ▸ hsent) (hsent1 ▸ hnodup) (by rw [hsent1, htail1, htail])
    have hq : (((h.putResult r R).note (.made r)).putQueue s (S.enlist r R.callbackMsg)).queues q = some Q1 := hQ1
    simp only [hq, Option.bind_eq_bind, Option.bind_some]
    exact congrArg (Option.bind · _) happend

theorem Ok.write (ho : Ok h) (hm : Nowhere h m) (hlt : m < h.next) (M : Sent) : Ok (h.putMessage m M) :=
  ⟨ho.wf.write hm hlt M, ho.log⟩

theorem Wf.unwritten (hw : Wf h loose) (n : Nat) (hm : h.next ≤ m) : Nowhere (h.allot n) m :=
  (hw.allot n).nowhere (hw.fresh m hm).2.1

theorem send_result_ok (ho : Ok h) (hQ : h.queues q ≠ none) (hS : ∀ s, sender = some s → h.queues s ≠ none)
    (msg : Sent) (deadline : Option Nat) :
    ∃ h1 h2 es, sendResult h sender q msg deadline = some h1 ∧
      (do
        let queue ← h1.queues q
        let queue ← appendSent h1.messages queue h.next
        some (Status.success, h1.putQueue q (queue.touch QS_SENDMESSAGE))) = some (.success, h2) ∧
      Ok h2 ∧ h2.log = es ++ h.log ∧ Quiet (fun x => sender = none ∧ x = h.next + 1) es := by
  have hnew : h.results (h.next + 1) = none := (ho.wf.fresh _ (Nat.le_add_right ..)).2.2
  have hunused : account (h.next + 1) h.log = [] := ho.log.unused (Nat.le_add_right ..)
  unfold sendResult
  split
  · have hm := ho.wf.unwritten 3 (Nat.le_refl _)
    have hc := ho.wf.unwritten 3 (Nat.le_add_right _ 2)
    have hob := ((ho.allot 3).write hm (Nat.lt_add_of_pos_right (by decide)) { msg with
      data := []
      result := some (h.next + 1) }).write hc (Nat.add_lt_add_left (by decide) _)
      { kind := .callbackResult, win := msg.win, msg := msg.msg, x := msg.x, y := msg.y, time := msg.time,
        data := msg.data }
    refine link_message hob (R :=
      { msg := some h.next, sender, receiver := some q, hasDeadline := deadline.isSome,
        deadline := deadline.getD 0, callbackMsg := some (h.next + 2) })
      ⟨hm, by simp, hnew, hunused, Nat.add_lt_add_left (by decide) _, rfl, rfl, fun c hcall => ?_⟩ rfl hQ hS
    cases hcall
    exact ⟨by simp, by simp, by simp, hc⟩
  · have hm := ho.wf.unwritten 2 (Nat.le_refl _)
    have hob := (ho.allot 2).write hm (Nat.lt_add_of_pos_right (by decide)) { msg with
      result := some (h.next + 1) }
    exact link_message hob (R :=
      { msg := some h.next, sender, receiver := some q, hasDeadline := deadline.isSome,
        deadline := deadline.getD 0 })
      ⟨hm, by simp, hnew, hunused, Nat.add_lt_add_left (by decide) _, rfl, rfl, by simp⟩ rfl hQ hS

theorem send_ok (ho : Ok h) (hQ : h.queues q ≠ none) (hS : ∀ s, sender = some s → h.queues s ≠ none)
    (fields : Sent) (data : List UInt8) (deadline : Option Nat) (memory : SendMemory) :
    ∃ st h' es, send h sender q fields data deadline memory = some (st, h') ∧ Ok h' ∧
      h'.log = es ++ h.log ∧ Quiet (fun x => sender = none ∧ x = h.next + 1) es := by
  have hsame : ∀ st : Status, ∃ st' h' es, some (st, h) = some (st', h') ∧ Ok h' ∧ h'.log = es ++ h.log ∧
      Quiet (fun x => sender = none ∧ x = h.next + 1) es :=
    fun st => ⟨st, h, [], rfl, ho, rfl, .nil _⟩
  unfold send
  split
  · exact hsame _
  split
  · exact hsame _
  split
  · exact hsame _
  split
  · obtain ⟨Q, hQ⟩ := Option.ne_none_iff_exists'.mp hQ
    have hm := ho.wf.unwritten 1 (Nat.le_refl _)
    have hob := (ho.allot 1).write hm (Nat.lt_add_of_pos_right (by decide)) { fields with data, result := none }
    have hpost := hob.wf.post hQ (M := { fields with data, result := none }) (by simp) rfl hm
    obtain ⟨hsent, hnodup, htail⟩ := hob.wf.sent_there hQ
    simp only [Option.bind_eq_bind, Option.bind_some, Heap.putMessage_queues, Heap.allot_queues, hQ,
      append_sent hsent hnodup htail]
    exact ⟨_, _, [], rfl, ⟨hpost.touched QS_SENDMESSAGE, hob.log⟩, rfl, .nil _⟩
  · obtain ⟨h1, h2, es, heq, heq', ho', hlog, hquiet⟩ :=
      send_result_ok ho hQ hS { fields with data, result := none } deadline
    dsimp only
    rw [heq]
    exact ⟨.success, h2, es, heq', ho', hlog, hquiet⟩

end Autorun.Server.MsgQueue
