import Mathlib.Data.List.Nodup
import Autorun.Server.MsgQueue

namespace Autorun.Server.MsgQueue

variable {h h' : Heap} {q s r m : Nat} {Q : Queue} {R : Result} {M : Sent} {loose loose' : Option Nat}

@[simp] theorem put_apply (f : Nat → Option α) (k i : Nat) (v : Option α) :
    put f k v i = if i = k then v else f i := rfl

@[grind =] theorem put_eq (f : Nat → Option α) (k : Nat) (v : Option α) :
    put f k v = fun i => if i = k then v else f i := rfl

attribute [grind =] Heap.putQueue Heap.putResult Heap.putMessage Heap.allot Heap.setHead Heap.eraseQueue
  Heap.eraseResult Heap.eraseMessage Heap.note

section field

variable [Inhabited β] {map : Nat → Option α} {x : α}

/-- A field of what is at an address, or its empty value if nothing is. -/
def field (map : Nat → Option α) (f : α → β) (i : Nat) : β := ((map i).map f).getD default

@[simp, grind =] theorem field_put_some (f : α → β) (k i : Nat) :
    field (put map k (some x)) f i = if i = k then f x else field map f i := by
  simp only [field, put_apply]
  split <;> rfl

@[simp, grind =] theorem field_put_none (f : α → β) (k i : Nat) :
    field (put map k none) f i = if i = k then default else field map f i := by
  simp only [field, put_apply]
  split <;> rfl

theorem field_some (hx : map i = some x) (f : α → β) : field map f i = f x := by
  simp [field, hx]

theorem field_none (hx : map i = none) (f : α → β) : field map f i = default := by
  simp [field, hx]

end field

/-! The fields of queues, results and messages by their addresses. -/

namespace Heap

variable (h : Heap)

@[simp] abbrev sends (q : Nat) : List Nat := field h.queues Queue.sendResults q

@[simp] abbrev calls (q : Nat) : List Nat := field h.queues Queue.callbackResults q

@[simp] abbrev holds (q : Nat) : List Nat := field h.queues Queue.recvResult q

@[simp] abbrev sent (q : Nat) : List Nat := field h.queues Queue.sent q

@[simp] abbrev tail (q : Nat) : Option Nat := field h.queues Queue.sentTail q

@[simp] abbrev sender (r : Nat) : Option Nat := field h.results Result.sender r

@[simp] abbrev receiver (r : Nat) : Option Nat := field h.results Result.receiver r

@[simp] abbrev msg (r : Nat) : Option Nat := field h.results Result.msg r

@[simp] abbrev callback (r : Nat) : Option Nat := field h.results Result.callbackMsg r

@[simp] abbrev replied (r : Nat) : Bool := field h.results Result.replied r

@[simp] abbrev owner (m : Nat) : Option Nat := field h.messages Sent.result m

end Heap

/-- Every pointer leads to something allocated that points back, and every result has someone who
refers to it. The result `loose`, if there is one, is in the middle of an operation. -/
structure Wf (h : Heap) (loose : Option Nat) : Prop where
  -- a result is in the lists of the queues it names, and in no others
  sends : ∀ q r, r ∈ h.sends q ∨ r ∈ h.calls q ↔ h.sender r = some q
  holds : ∀ q r, r ∈ h.holds q ↔ h.receiver r = some q ∧ h.msg r = none
  nodup : ∀ q, (h.sends q).Nodup ∧ (h.calls q).Nodup ∧ (h.holds q).Nodup ∧ (h.sent q).Nodup
  -- a message is in one queue or is the callback of one result, and a result that is not received
  -- points to its message and back
  undelivered : ∀ r m, h.msg r = some m →
    h.owner m = some r ∧ h.receiver r ≠ none ∧ ∀ q, h.receiver r = some q → m ∈ h.sent q
  carried : ∀ q m, m ∈ h.sent q → h.messages m ≠ none ∧
    ∀ r, h.owner m = some r → h.msg r = some m ∧ h.receiver r = some q
  callbacks : ∀ r m, h.callback r = some m → h.messages m ≠ none ∧ h.owner m = none ∧ ∀ q, m ∉ h.sent q
  callbackOne : ∀ r r' m, h.callback r = some m → h.callback r' = some m → r = r'
  sentOne : ∀ q q' m, m ∈ h.sent q → m ∈ h.sent q' → q = q'
  tail : ∀ q, h.tail q = (h.sent q).getLast?
  -- the list of queues has each of them once, and no address is ahead of the next one
  head : ∀ q, h.head.Nodup ∧ (q ∈ h.head ↔ h.queues q ≠ none)
  fresh : ∀ i, h.next ≤ i → h.queues i = none ∧ h.messages i = none ∧ h.results i = none
  referred : ∀ r, h.results r ≠ none → loose ≠ some r → h.sender r ≠ none ∨ h.receiver r ≠ none
  pending : ∀ r, h.msg r ≠ none → h.replied r = false

/-- What holds of a heap holds of the next one too. -/
abbrev Carries (h h' : Heap) (p : Heap → Prop) : Prop := p h → p h'

/-- Field by field; each may use what held of the field before. -/
theorem Wf.carry (hw : Wf h loose)
    (hsends : ∀ q r, Carries h h' fun h => r ∈ h.sends q ∨ r ∈ h.calls q ↔ h.sender r = some q)
    (hholds : ∀ q r, Carries h h' fun h => r ∈ h.holds q ↔ h.receiver r = some q ∧ h.msg r = none)
    (hnodup : ∀ q, Carries h h' fun h =>
      (h.sends q).Nodup ∧ (h.calls q).Nodup ∧ (h.holds q).Nodup ∧ (h.sent q).Nodup)
    (hundelivered : ∀ r m, Carries h h' fun h => h.msg r = some m →
      h.owner m = some r ∧ h.receiver r ≠ none ∧ ∀ q, h.receiver r = some q → m ∈ h.sent q)
    (hcarried : ∀ q m, Carries h h' fun h => m ∈ h.sent q → h.messages m ≠ none ∧
      ∀ r, h.owner m = some r → h.msg r = some m ∧ h.receiver r = some q)
    (hcallbacks : ∀ r m, Carries h h' fun h => h.callback r = some m →
      h.messages m ≠ none ∧ h.owner m = none ∧ ∀ q, m ∉ h.sent q)
    (hcallbackOne : ∀ r r' m, Carries h h' fun h =>
      h.callback r = some m → h.callback r' = some m → r = r')
    (hsentOne : ∀ q q' m, Carries h h' fun h => m ∈ h.sent q → m ∈ h.sent q' → q = q')
    (htail : ∀ q, Carries h h' fun h => h.tail q = (h.sent q).getLast?)
    (hhead : ∀ q, Carries h h' fun h => h.head.Nodup ∧ (q ∈ h.head ↔ h.queues q ≠ none))
    (hfresh : ∀ i, Carries h h' fun h =>
      h.next ≤ i → h.queues i = none ∧ h.messages i = none ∧ h.results i = none)
    (hreferred : ∀ r, (h.results r ≠ none → loose ≠ some r → h.sender r ≠ none ∨ h.receiver r ≠ none) →
      h'.results r ≠ none → loose' ≠ some r → h'.sender r ≠ none ∨ h'.receiver r ≠ none)
    (hpending : ∀ r, Carries h h' fun h => h.msg r ≠ none → h.replied r = false) : Wf h' loose' :=
  ⟨fun q r => hsends q r (hw.sends q r), fun q r => hholds q r (hw.holds q r), fun q => hnodup q (hw.nodup q),
    fun r m => hundelivered r m (hw.undelivered r m), fun q m => hcarried q m (hw.carried q m),
    fun r m => hcallbacks r m (hw.callbacks r m), fun r r' m => hcallbackOne r r' m (hw.callbackOne r r' m),
    fun q q' m => hsentOne q q' m (hw.sentOne q q' m), fun q => htail q (hw.tail q), fun q => hhead q (hw.head q),
    fun i => hfresh i (hw.fresh i), fun r => hreferred r (hw.referred r), fun r => hpending r (hw.pending r)⟩

theorem queue_fields (hQ : h.queues q = some Q) :
    h.sends q = Q.sendResults ∧ h.calls q = Q.callbackResults ∧ h.holds q = Q.recvResult ∧
      h.sent q = Q.sent ∧ h.tail q = Q.sentTail :=
  ⟨field_some hQ _, field_some hQ _, field_some hQ _, field_some hQ _, field_some hQ _⟩

theorem result_fields (hR : h.results r = some R) :
    h.sender r = R.sender ∧ h.receiver r = R.receiver ∧ h.msg r = R.msg ∧ h.callback r = R.callbackMsg ∧
      h.replied r = R.replied :=
  ⟨field_some hR _, field_some hR _, field_some hR _, field_some hR _, field_some hR _⟩

theorem queue_of_mem {f : Queue → List Nat} (hx : x ∈ field h.queues f q) :
    ∃ Q, h.queues q = some Q ∧ x ∈ f Q := by
  cases hQ : h.queues q with
  | none =>
    rw [field_none hQ] at hx
    cases hx
  | some Q => exact ⟨Q, rfl, field_some hQ f ▸ hx⟩

theorem result_of_some {f : Result → Option Nat} (hx : field h.results f r = some x) :
    ∃ R, h.results r = some R ∧ f R = some x := by
  cases hR : h.results r with
  | none =>
    rw [field_none hR] at hx
    cases hx
  | some R => exact ⟨R, rfl, field_some hR f ▸ hx⟩

theorem unlink_result (hlive : ∀ x ∈ list, results x ≠ none) :
    unlinkResult results r list = some (list.erase r) := by
  induction list with
  | nil => rfl
  | cons x list ih =>
    obtain ⟨R, hR⟩ := Option.ne_none_iff_exists'.mp (hlive x (by simp))
    have ih := ih fun y hy => hlive y (by simp [hy])
    unfold unlinkResult
    simp only [hR, ih]
    by_cases hx : x = r
    · simp [hx]
    · simp [hx]

theorem last_or (x : Nat) (list : List Nat) (before : Option Nat) :
    (x :: list).getLast?.or before = list.getLast?.or (some x) := by
  rw [List.getLast?_cons]
  cases list.getLast? <;> simp

/-- The walk finds the message and gives the tail back to what is then the last link. -/
theorem unlink_sent_loop (hlive : ∀ x ∈ list, messages x ≠ none) (hnodup : list.Nodup)
    (htail : tail = list.getLast?.or before) :
    unlinkSentLoop messages m tail before list =
      some (list.erase m, (list.erase m).getLast?.or before) := by
  induction list generalizing before with
  | nil => simp [unlinkSentLoop, htail]
  | cons x list ih =>
    obtain ⟨M, hM⟩ := Option.ne_none_iff_exists'.mp (hlive x (by simp))
    obtain ⟨hnot, hnodup⟩ := List.nodup_cons.mp hnodup
    rw [last_or] at htail
    unfold unlinkSentLoop
    simp only [hM]
    by_cases hx : x = m
    · subst hx
      cases hlast : list.getLast? with
      | none => simp [htail, hlast]
      | some y =>
        have hne : y ≠ x := fun he => hnot (he ▸ List.mem_of_getLast? hlast)
        simp [htail, hlast, hne]
    · rw [ih (fun y hy => hlive y (by simp [hy])) hnodup htail]
      have herase : (x :: list).erase m = x :: list.erase m := List.erase_cons_tail (by simpa using hx)
      simp [hx, last_or]

theorem link_after_last (hlast : list.getLast? = some t) (hnodup : list.Nodup) :
    linkAfter t m list = list ++ [m] := by
  induction list with
  | nil => cases hlast
  | cons x list ih =>
    obtain ⟨hnot, hnodup⟩ := List.nodup_cons.mp hnodup
    unfold linkAfter
    cases list with
    | nil =>
      cases hlast
      simp
    | cons y list =>
      have hne : x ≠ t := fun he => hnot (he ▸ List.mem_of_getLast? hlast)
      simp [hne, ih hlast hnodup]

/-- The queue with a message behind the others. -/
abbrev Queue.plus (Q : Queue) (m : Nat) : Queue := { Q with sent := Q.sent ++ [m], sentTail := some m }

abbrev Queue.without (Q : Queue) (m : Nat) : Queue :=
  { Q with sent := Q.sent.erase m, sentTail := (Q.sent.erase m).getLast? }

/-- The queue that does not list a result as its own any more. -/
abbrev Queue.lacking (Q : Queue) (r : Nat) : Queue :=
  { Q with sendResults := Q.sendResults.erase r, callbackResults := Q.callbackResults.erase r }

/-- The sender's list a new result goes to. -/
abbrev Queue.enlist (Q : Queue) (r : Nat) (callback : Option Nat) : Queue :=
  { Q with
    sendResults := if callback = none then r :: Q.sendResults else Q.sendResults
    callbackResults := if callback = none then Q.callbackResults else r :: Q.callbackResults }

theorem append_sent (hlive : ∀ x ∈ Q.sent, messages x ≠ none) (hnodup : Q.sent.Nodup)
    (htail : Q.sentTail = Q.sent.getLast?) :
    appendSent messages Q m = some (Q.plus m) := by
  unfold appendSent
  cases hlast : Q.sentTail with
  | none =>
    have hnil : Q.sent = [] := List.getLast?_eq_none_iff.mp (htail.symm.trans hlast)
    simp [hnil]
  | some t =>
    have ht := htail.symm.trans hlast
    obtain ⟨M, hM⟩ := Option.ne_none_iff_exists'.mp (hlive t (List.mem_of_getLast? ht))
    simp [hM, link_after_last ht hnodup]

/-! What each change of the heap keeps. -/

theorem Wf.loosen (hw : Wf h none) (r : Nat) : Wf h (some r) :=
  { hw with referred := fun x hx _ => hw.referred x hx (by simp) }

/-- The operation on a result ends with someone who refers to it. -/
theorem Wf.tighten (hw : Wf h (some r)) (hreferred : h.results r ≠ none →
    h.sender r ≠ none ∨ h.receiver r ≠ none) : Wf h none := by
  refine { hw with referred := fun x hx _ => ?_ }
  by_cases hxr : r = x
  · exact hxr ▸ hreferred (hxr ▸ hx)
  · exact hw.referred x hx (by simpa using hxr)

theorem Wf.same (hw : Wf h loose) (hqueues : h'.queues = h.queues) (hmessages : h'.messages = h.messages)
    (hresults : h'.results = h.results) (hhead : h'.head = h.head) (hnext : h'.next = h.next) :
    Wf h' loose := by
  obtain ⟨queues, messages, results, head, next, log⟩ := h
  subst hqueues hmessages hresults hhead hnext
  exact { hw with }

theorem Wf.touch (hw : Wf h loose) (hQ : h.queues q = some Q) (bits : BitVec 32) :
    Wf (h.putQueue q (Q.touch bits)) loose := by
  have hq := queue_fields hQ
  apply hw.carry
  all_goals grind [Queue.touch]

theorem Wf.mark (hw : Wf h (some r)) (hr : h.results r = some R) (hsender : R'.sender = R.sender)
    (hreceiver : R'.receiver = R.receiver) (hmsg : R'.msg = R.msg)
    (hcallback : R'.callbackMsg = R.callbackMsg) (hpending : R'.msg ≠ none → R'.replied = false) :
    Wf (h.putResult r R') (some r) := by
  have hR := result_fields hr
  apply hw.carry
  all_goals grind

theorem Wf.detach (hw : Wf h (some r)) (hr : h.results r = some R) (hs : R.sender = some s)
    (hQ : h.queues s = some Q) :
    Wf ((h.putQueue s (Q.lacking r)).putResult r { R with sender := none }) (some r) := by
  have hq := queue_fields hQ
  have hR := result_fields hr
  have hn := hw.nodup s
  have hpend := hw.pending r
  apply hw.carry
  all_goals grind

theorem Wf.release (hw : Wf h none) (hr : h.results r = some R) (hQ : h.queues q = some Q)
    (hstack : Q.recvResult = r :: rest) :
    Wf ((h.putQueue q { Q with recvResult := rest }).putResult r { R with receiver := none })
      (some r) := by
  have hq := queue_fields hQ
  have hR := result_fields hr
  have hheld := hw.holds q r
  have hn := hw.nodup q
  apply (hw.loosen r).carry
  all_goals grind

theorem Wf.erase (hw : Wf h (some r)) (hsender : h.sender r = none) (hreceiver : h.receiver r = none) :
    Wf (h.eraseResult r) none := by
  apply hw.carry
  all_goals grind

theorem Wf.eraseMessage (hw : Wf h loose) (hsent : ∀ q, m ∉ h.sent q) (hcallback : ∀ r, h.callback r ≠ some m) :
    Wf (h.eraseMessage m) loose := by
  apply hw.carry
  case hundelivered =>
    intro x m' hx hm'
    obtain ⟨howner, hreceiver, hmem⟩ := hx hm'
    obtain ⟨q, hq⟩ := Option.ne_none_iff_exists'.mp hreceiver
    have hne : m' ≠ m := fun he => hsent q (he ▸ hmem q hq)
    grind
  all_goals grind

theorem Wf.takePlain (hw : Wf h loose) (hQ : h.queues q = some Q) (hplain : h.owner m = none) :
    Wf (h.putQueue q (Q.without m)) loose := by
  have hq := queue_fields hQ
  apply hw.carry
  all_goals grind

/-- A message is received: its result goes from the message to the receiver's stack. -/
theorem Wf.deliver (hw : Wf h none) (hQ : h.queues q = some Q) (hr : h.results r = some R)
    (hmsg : R.msg = some m) (hreceiver : R.receiver = some q) :
    Wf ((h.putResult r { R with msg := none }).putQueue q
      { Q.without m with recvResult := r :: Q.recvResult }) none := by
  have hq := queue_fields hQ
  have hR := result_fields hr
  have hn := hw.nodup q
  have hheld := hw.holds q r
  have hres := hw.undelivered r m
  apply hw.carry
  all_goals grind

theorem Wf.drop (hw : Wf h none) (hQ : h.queues q = some Q) (hr : h.results r = some R)
    (hmsg : R.msg = some m) (hreceiver : R.receiver = some q) (hsender : R'.sender = R.sender)
    (hcallback : R'.callbackMsg = R.callbackMsg) (hmsg' : R'.msg = none) (hreceiver' : R'.receiver = none) :
    Wf ((h.putQueue q (Q.without m)).putResult r R') (some r) := by
  have hq := queue_fields hQ
  have hR := result_fields hr
  have hn := hw.nodup q
  have hres := hw.undelivered r m
  apply (hw.loosen r).carry
  all_goals grind

theorem Wf.requeue (hw : Wf h (some r)) (hr : h.results r = some R) (hQ : h.queues s = some Q)
    (hcallback : R.callbackMsg = some m) (hplain : M.result = none) :
    Wf (((h.putMessage m M).putQueue s (Q.plus m)).putResult r { R with callbackMsg := none }) (some r) := by
  have hq := queue_fields hQ
  have hR := result_fields hr
  have hc := hw.callbacks r m
  have hpend := hw.pending r
  have hone := fun x => hw.callbackOne x r m
  apply hw.carry
  all_goals grind

def Nowhere (h : Heap) (m : Nat) : Prop :=
  (∀ q, m ∉ h.sent q) ∧ (∀ r, h.callback r ≠ some m) ∧ ∀ r, h.msg r ≠ some m

theorem Wf.nowhere (hw : Wf h loose) (hm : h.messages m = none) : Nowhere h m := by
  refine ⟨fun q hq => (hw.carried q m hq).1 hm, fun r hr => (hw.callbacks r m hr).1 hm, fun r hr => ?_⟩
  have howner : h.owner m = some r := (hw.undelivered r m hr).1
  simp [field_none hm] at howner

theorem Wf.allot (hw : Wf h loose) (n : Nat) : Wf (h.allot n) loose := by
  apply hw.carry
  all_goals grind

theorem Wf.write (hw : Wf h loose) (hm : Nowhere h m) (hlt : m < h.next) (M : Sent) :
    Wf (h.putMessage m M) loose := by
  obtain ⟨hsent, hcallback, hmsg⟩ := hm
  apply hw.carry
  all_goals grind

theorem Wf.post (hw : Wf h loose) (hQ : h.queues q = some Q) (hM : h.messages m = some M)
    (hplain : M.result = none) (hm : Nowhere h m) : Wf (h.putQueue q (Q.plus m)) loose := by
  obtain ⟨hsent, hcallback, -⟩ := hm
  have hq := queue_fields hQ
  have hres := field_some hM Sent.result
  apply hw.carry
  all_goals grind

theorem Wf.attach (hw : Wf h none) (hQ : h.queues q = some Q) (hM : h.messages m = some M)
    (hresult : M.result = some r) (hm : Nowhere h m) (hnew : h.results r = none) (hlt : r < h.next)
    (hmsg : R.msg = some m) (hreceiver : R.receiver = some q) (hsender : R.sender = none)
    (hpending : R.replied = false)
    (hcallback : ∀ c, R.callbackMsg = some c → c ≠ m ∧ h.messages c ≠ none ∧ h.owner c = none ∧ Nowhere h c) :
    Wf ((h.putResult r R).putQueue q (Q.plus m)) none := by
  obtain ⟨hsent, hcall, hmsg'⟩ := hm
  have hq := queue_fields hQ
  have hres := field_some hM Sent.result
  have hnone := fun f : Result → Option Nat => field_none hnew f
  unfold Nowhere at hcallback
  apply hw.carry
  all_goals grind

theorem Wf.enlist (hw : Wf h none) (hr : h.results r = some R) (hsender : R.sender = none)
    (hQ : h.queues s = some Q) :
    Wf ((h.putResult r { R with sender := some s }).putQueue s (Q.enlist r R.callbackMsg)) none := by
  have hq := queue_fields hQ
  have hR := result_fields hr
  have hsend := hw.sends s r
  have hpend := hw.pending r
  apply hw.carry
  all_goals grind

theorem Wf.create (hw : Wf h none) (tid : Nat) :
    Wf (((h.allot 1).setHead (h.next :: h.head)).putQueue h.next { tid }) none := by
  have hnone := (hw.fresh h.next (Nat.le_refl _)).1
  have hlists : ∀ f : Queue → List Nat, field h.queues f h.next = [] := field_none hnone
  have htail := field_none hnone Queue.sentTail
  have hhead := hw.head h.next
  apply hw.carry
  all_goals grind

theorem Wf.eraseQueue (hw : Wf h none) (hsends : h.sends q = []) (hcalls : h.calls q = [])
    (hholds : h.holds q = []) (hsent : h.sent q = []) :
    Wf ((h.setHead (h.head.erase q)).eraseQueue q) none := by
  have htail := hw.tail q
  have hnil : (default : List Nat) = [] := rfl
  apply hw.carry
  all_goals grind

end Autorun.Server.MsgQueue
