import NetTables.Client.Streams

namespace NetTables.Client

open Lib Spec

/-- A client at work under watch. Its calls have numbers: the number of the call that each task is
at, of those whose messages are on the channel, of those whose message has been written, and of the
one that has made each stream. And the values: what has been handed out since a call's message was
written, and what was put on each stream. -/
structure Watched where
  system : System
  calls : Nat
  current : TaskId → Nat
  channel : List Nat
  written : List Nat
  origin : StreamId → Nat
  heard : Nat → List MessageData
  got : StreamId → List MessageData

/-- The messages that wait in a stream. -/
def System.waiting (S : System) (i : StreamId) : List MessageData :=
  (S.pool.shared.streams.lookup i).elim [] SubscriptionStream.receiver

namespace Watched

section After

variable (W : Watched) (e : Event) (S' : System)

/-- A task that gets a program is at a new call. -/
def currentAfter : TaskId → Nat :=
  match e.starts with
  | some t => Function.update W.current t W.calls
  | none => W.current

def channelAfter : List Nat :=
  match e with
  | .moves t =>
    if W.system.pool.queue.length < S'.pool.queue.length then
      W.channel ++ [W.current t]
    else
      W.channel
  | .written => W.channel.tail
  | .writeFailed => W.channel.tail
  | _ => W.channel

def writtenAfter : List Nat :=
  match e with
  | .written => W.written ++ W.channel.head?.toList
  | _ => W.written

def originAfter : StreamId → Nat :=
  match e with
  | .moves t =>
    if W.system.pool.shared.nextStream < S'.pool.shared.nextStream then
      Function.update W.origin W.system.pool.shared.nextStream (W.current t)
    else
      W.origin
  | _ => W.origin

def heardAfter (n : Nat) : List MessageData :=
  match W.system.handsOut e with
  | some data => if n ∈ W.written then W.heard n ++ [data] else W.heard n
  | none => W.heard n

def gotAfter (i : StreamId) : List MessageData :=
  match W.system.handsOut e with
  | some _ => W.got i ++ (S'.waiting i).drop (W.system.waiting i).length
  | none => W.got i

/-- What is seen of a step. -/
def after : Watched where
  system := S'
  calls := W.calls + e.starts.elim 0 fun _ => 1
  current := W.currentAfter e
  channel := W.channelAfter e S'
  written := W.writtenAfter e
  origin := W.originAfter e S'
  heard := W.heardAfter e
  got := W.gotAfter e S'

end After

/-- `start` runs, which is call 0. -/
def initial (o : IterOrder) (now : Instant) : Watched where
  system := .initial o now
  calls := 1
  current := fun _ => 0
  channel := []
  written := []
  origin := fun _ => 0
  heard := fun _ => []
  got := fun _ => []

end Watched

/-- The steps of a client under watch. -/
def Watches (ofTypeStr : String → FrcType) (W : Watched) (e : Event) (W' : Watched) : Prop :=
  Takes ofTypeStr W.system e W'.system ∧ W' = W.after e W'.system

/-- Runs of a client under watch whose steps all meet `guard`, with their number. -/
abbrev Watching (ofTypeStr : String → FrcType) (guard : Watched → Event → Prop) :
    Nat → Watched → Prop :=
  Run (fun W => ∃ o now, W = .initial o now) (Watches ofTypeStr) (fun _ => 0) (fun _ _ => 1) guard

section Cared

variable {sub : Subscription} {values : List MessageData} {data : MessageData}

theorem cared_append_of_cares (h : sub.caresAbout data.topicName = true) :
    cared sub (values ++ [data]) = cared sub values ++ [data] := by
  simp [cared, h]

theorem cared_append_of_not (h : ¬sub.caresAbout data.topicName = true) :
    cared sub (values ++ [data]) = cared sub values := by
  simp [cared, h]

end Cared

/-- Every stream that the user has been given and still holds has got, in order and with nothing in
between, what it cares about of the values since its message was written. -/
def Receives (W : Watched) : Prop :=
  ∀ i stream, W.system.pool.shared.streams.lookup i = some stream →
    ¬W.system.Arrives i → ¬W.system.Leaves i →
    cared stream.data (W.heard (W.origin i)) <:+ W.got i

/-- The task has sent its message for this subscription, and has not entered it yet. -/
def System.Subscribes (S : System) (t : TaskId) (sub : Subscription) : Prop :=
  S.pool.rest t = creating sub ∨ ∃ i, S.pool.rest t = entering sub i ∨ S.pool.rest t = entry sub i

/-- The streams stay entered, and no value is handed out that a subscription wants which is not
entered yet though its message has been written. -/
def KeepsValues (W : Watched) (e : Event) : Prop :=
  KeepsStreams W.system e ∧ ∀ data, W.system.handsOut e = some data →
    ∀ t sub, W.system.Subscribes t sub → W.current t ∈ W.written →
      sub.caresAbout data.topicName = false

/-- The call has not sent its message yet. -/
def Stage.Asks : Stage → Prop
  | .numbering _ _ | .asking _ => True
  | _ => False

theorem Stage.Stays.not_asks {s : Stage} (h : s.Stays) : ¬s.Asks := by
  cases s with
  | numbering _ _ | asking _ => exact h.elim
  | _ => exact id

/-- The subscription whose message has been sent and that has not been entered. -/
def Stage.wants : Stage → Option Subscription
  | .creating sub | .entering sub _ => some sub
  | _ => none

/-- The calls are told apart, and what they are to hear they have. -/
structure Heeds (W : Watched) (stage : TaskId → Stage) : Prop where
  lt : ∀ t, W.current t < W.calls
  fresh : ∀ n, W.calls ≤ n → n ∉ W.channel ∧ n ∉ W.written
  silent : ∀ n, n ∉ W.written → W.heard n = []
  alone : ∀ t, (stage t).Asks → W.current t ∉ W.channel ∧ W.current t ∉ W.written ∧
    ∀ t', t' ≠ t → W.current t' ≠ W.current t
  missed : ∀ t sub, (stage t).wants = some sub →
    cared sub (W.heard (W.current t)) = []
  made : ∀ t sub i, stage t = .entering sub i → W.origin i = W.current t
  received : ∀ i stream, W.system.pool.shared.streams.lookup i = some stream →
    (∃ t, (stage t).Pending i) ∨
      cared stream.data (W.heard (W.origin i)) <:+ W.got i

section Heeds

variable {ofTypeStr : String → FrcType} {W : Watched} {S' : System} {e : Event}
  {stage stage' : TaskId → Stage} {t : TaskId} {data : MessageData}

/-- Only a plain task hands out values. -/
theorem Attends.handsOut (h : Attends W.system.pool stage)
    (hv : W.system.handsOut (.moves t) = some data) :
    stage t = .plain ∧ ∃ o next, W.system.pool.rest t = .act (ClientState.handOut o data) next := by
  have hat := h.stages t
  have hact : ∀ {f next}, W.system.pool.rest t = .act f next →
      (f probe).streams.lookup 0 = probe.streams.lookup 0 → False := by
    intro f next hrest hstream
    simp only [System.handsOut, hrest, shows, hstream] at hv
    cases hv
  have hother : ∀ {rest}, W.system.pool.rest t = rest → (∀ f next, rest ≠ .act f next) → False := by
    intro rest hrest hne
    simp only [System.handsOut] at hv
    split at hv
    next f next heq => exact hne f next (hrest ▸ heq)
    · cases hv
  cases hs : stage t with
  | plain =>
    rw [hs] at hat
    simp only [System.handsOut] at hv
    split at hv
    next f next hrest =>
      rw [hrest] at hat
      obtain ⟨o, rfl⟩ := hat.1.handOut_of_shows hv
      exact ⟨rfl, o, next, hrest⟩
    · cases hv
  | numbering topics options =>
    rw [hs] at hat
    exact (hact hat rfl).elim
  | asking sub =>
    rw [hs] at hat
    exact (hother hat (by simp [asking])).elim
  | creating sub =>
    rw [hs] at hat
    exact (hact hat (by simp [ClientState.create, probe])).elim
  | entering sub i =>
    rw [hs] at hat
    rcases hat with hat | hat
    · exact (hother hat (by simp [Client.entering])).elim
    · exact (hact hat rfl).elim
  | looking i =>
    rw [hs] at hat
    exact (hact hat rfl).elim
  | withdrawing i subuid =>
    rw [hs] at hat
    rcases hat with hat | hat | hat
    · exact (hother hat (by simp [withdrawing])).elim
    · exact (hother hat (by simp)).elim
    · exact (hact hat rfl).elim
  | dropping i =>
    rw [hs] at hat
    rcases hat with hat | hat
    · exact (hother hat (by simp)).elim
    · -- the stream that is let go shows nothing
      simp only [System.handsOut, hat, dropping, shows, ClientState.release,
        KeyMap.lookup_erase] at hv
      split_ifs at hv
      · simp at hv
      · cases hv

theorem Attends.subscribes (h : Attends W.system.pool stage) {sub : Subscription}
    (ht : (stage t).wants = some sub) : W.system.Subscribes t sub := by
  have hat := h.stages t
  cases hs : stage t with
  | creating sub' =>
    rw [hs] at ht hat
    cases ht
    exact .inl hat
  | entering sub' i =>
    rw [hs] at ht hat
    cases ht
    exact .inr ⟨i, hat⟩
  | _ =>
    rw [hs] at ht
    cases ht

/-- A call whose stream is not entered yet misses nothing. -/
theorem Heeds.missed_after (w : Heeds W stage) (h : Attends W.system.pool stage)
    (hkeeps : KeepsValues W e) {sub : Subscription} (ht : (stage t).wants = some sub) :
    cared sub (W.heardAfter e (W.current t)) = [] := by
  have hold := w.missed t sub ht
  cases hv : W.system.handsOut e with
  | none => simpa only [Watched.heardAfter, hv] using hold
  | some data =>
    simp only [Watched.heardAfter, hv]
    split_ifs with hwritten
    · have hcares := hkeeps.2 data hv t sub (h.subscribes ht) hwritten
      rw [cared_append_of_not (by simp [hcares]), hold]
    · exact hold

theorem Heeds.silent_after (w : Heeds W stage) {n : Nat} (hn : n ∉ W.writtenAfter e) :
    W.heardAfter e n = [] := by
  have hold : n ∉ W.written := by
    intro hmem
    apply hn
    unfold Watched.writtenAfter
    split
    · exact List.mem_append_left _ hmem
    · exact hmem
  unfold Watched.heardAfter
  split
  · rw [if_neg hold]
    exact w.silent n hold
  · exact w.silent n hold

theorem mem_writtenAfter {n : Nat} (hn : n ∈ W.writtenAfter e) : n ∈ W.written ∨ n ∈ W.channel := by
  unfold Watched.writtenAfter at hn
  split at hn
  · rcases List.mem_append.mp hn with hn | hn
    · exact .inl hn
    · exact .inr (List.mem_of_mem_head? (Option.mem_toList.mp hn))
  · exact .inl hn

/-- A message that comes to the channel is that of a task that sends it. -/
theorem mem_channelAfter {n : Nat} (hn : n ∈ W.channelAfter e S') :
    n ∈ W.channel ∨ ∃ t, e = .moves t ∧ n = W.current t ∧
      W.system.pool.queue.length < S'.pool.queue.length := by
  unfold Watched.channelAfter at hn
  split at hn
  next t =>
    split_ifs at hn with hsends
    · rcases List.mem_append.mp hn with hn | hn
      · exact .inl hn
      · exact .inr ⟨t, rfl, List.mem_singleton.mp hn, hsends⟩
    · exact .inl hn
  · exact .inl (List.mem_of_mem_tail hn)
  · exact .inl (List.mem_of_mem_tail hn)
  · exact .inl hn

theorem currentAfter_of_starts (h : e.starts = some t) : W.currentAfter e t = W.calls := by
  simp [Watched.currentAfter, h]

theorem currentAfter_of_ne (h : e.starts ≠ some t) : W.currentAfter e t = W.current t := by
  cases hs : e.starts with
  | none => simp [Watched.currentAfter, hs]
  | some t' =>
    simp only [Watched.currentAfter, hs]
    apply Function.update_of_ne
    rintro rfl
    exact h hs

/-- Streams that are there keep their origin. -/
theorem originAfter_of_lt {i : StreamId} (hi : i < W.system.pool.shared.nextStream) :
    W.originAfter e S' i = W.origin i := by
  unfold Watched.originAfter
  split
  · split_ifs
    · exact Function.update_of_ne hi.ne ..
    · rfl
  · rfl

theorem Heeds.lt_after (w : Heeds W stage) (t : TaskId) :
    W.currentAfter e t < W.calls + e.starts.elim 0 fun _ => 1 := by
  by_cases ht : e.starts = some t
  · rw [currentAfter_of_starts ht, ht]
    exact Nat.lt_succ_self _
  · rw [currentAfter_of_ne ht]
    exact Nat.lt_add_right _ (w.lt t)

theorem Heeds.fresh_after (w : Heeds W stage) {n : Nat}
    (hn : W.calls + (e.starts.elim 0 fun _ => 1) ≤ n) :
    n ∉ W.channelAfter e S' ∧ n ∉ W.writtenAfter e := by
  have hle : W.calls ≤ n := le_of_add_le_left hn
  obtain ⟨hchannel, hwritten⟩ := w.fresh n hle
  constructor
  · intro hmem
    rcases mem_channelAfter hmem with hmem | ⟨t, -, rfl, -⟩
    · exact hchannel hmem
    · exact absurd (w.lt t) (not_lt.mpr hle)
  · intro hmem
    exact (mem_writtenAfter hmem).elim hwritten hchannel

/-- A call that has not sent its message stays alone with its number. -/
theorem Heeds.alone_after (w : Heeds W stage) (h : Attends W.system.pool stage)
    (hstep : Takes ofTypeStr W.system e S') (hturns : Turns W.system S' e stage stage')
    (ht : (stage' t).Asks) : W.currentAfter e t ∉ W.channelAfter e S' ∧
      W.currentAfter e t ∉ W.writtenAfter e ∧
      ∀ t', t' ≠ t → W.currentAfter e t' ≠ W.currentAfter e t := by
  by_cases hstarts : e.starts = some t
  · rw [currentAfter_of_starts hstarts]
    obtain ⟨hchannel, hwritten⟩ := w.fresh W.calls le_rfl
    refine ⟨fun hmem => ?_, fun hmem => (mem_writtenAfter hmem).elim hwritten hchannel, ?_⟩
    · rcases mem_channelAfter hmem with hmem | ⟨t', he, -⟩
      · exact hchannel hmem
      · rw [he] at hstarts
        cases hstarts
    · intro t' hne
      have hother : e.starts ≠ some t' := by
        rw [hstarts]
        exact fun heq => hne (Option.some.inj heq).symm
      rw [currentAfter_of_ne hother]
      exact (w.lt t').ne
  · rw [currentAfter_of_ne hstarts]
    -- what was asking before still has its number for itself
    have hasked : (stage t).Asks ∧ ∀ t', e = .moves t' → t' = t →
        ¬W.system.pool.queue.length < S'.pool.queue.length := by
      by_cases hmoves : e = .moves t
      · subst hmoves
        have hleads := hturns.moved t rfl
        have hat := h.stages t
        generalize stage t = s at hleads hat
        generalize stage' t = s' at hleads ht
        generalize S'.pool.shared = c' at hleads
        cases hleads with
        | numbered =>
          refine ⟨trivial, fun t' _ heq => ?_⟩
          cases hstep with
          | moves hm =>
            rw [hm.eq_of_act hat]
            exact lt_irrefl _
        | stays hs => exact absurd ht hs.not_asks
        | _ => exact ht.elim
      · rw [hturns.others t hmoves hstarts] at ht
        exact ⟨ht, fun t' he heq => absurd (heq ▸ he) hmoves⟩
    obtain ⟨hasks, hquiet⟩ := hasked
    obtain ⟨hchannel, hwritten, halone⟩ := w.alone t hasks
    refine ⟨fun hmem => ?_, fun hmem => (mem_writtenAfter hmem).elim hwritten hchannel, ?_⟩
    · rcases mem_channelAfter hmem with hmem | ⟨t', he, hcurrent, hsends⟩
      · exact hchannel hmem
      · by_cases heq : t' = t
        · exact hquiet t' he heq hsends
        · exact halone t' heq hcurrent.symm
    · intro t' hne
      by_cases hother : e.starts = some t'
      · rw [currentAfter_of_starts hother]
        exact (w.lt t).ne'
      · rw [currentAfter_of_ne hother]
        exact halone t' hne

/-- What a step does to a task that wants a stream. -/
theorem Heeds.missed_turns (w : Heeds W stage) (h : Attends W.system.pool stage)
    (hkeeps : KeepsValues W e) (hturns : Turns W.system S' e stage stage') {sub : Subscription}
    (ht : (stage' t).wants = some sub) :
    cared sub (W.heardAfter e (W.currentAfter e t)) = [] := by
  have hstarts : e.starts ≠ some t := by
    intro hstarts
    have hbegins := (hturns.begun t hstarts).2
    generalize stage' t = s at ht hbegins
    cases s with
    | creating _ | entering _ _ => exact hbegins
    | _ => cases ht
  rw [currentAfter_of_ne hstarts]
  have hwants : (stage t).wants = some sub ∨ (stage t).Asks := by
    by_cases hmoves : e = .moves t
    · have hleads := hturns.moved t hmoves
      generalize stage t = s at hleads
      generalize stage' t = s' at hleads ht
      generalize S'.pool.shared = c' at hleads
      cases hleads with
      | stays | created => exact .inl ht
      | asked => exact .inr trivial
      | _ => cases ht
    · rw [hturns.others t hmoves hstarts] at ht
      exact .inl ht
  rcases hwants with hwants | hasks
  · exact w.missed_after h hkeeps hwants
  · -- nothing is heard before the message is written
    have hsilent : W.heardAfter e (W.current t) = [] := by
      have hwritten := (w.alone t hasks).2.1
      unfold Watched.heardAfter
      split
      · rw [if_neg hwritten]
        exact w.silent _ hwritten
      · exact w.silent _ hwritten
    rw [hsilent]
    rfl

theorem Heeds.made_turns (w : Heeds W stage) (h : Attends W.system.pool stage)
    (hturns : Turns W.system S' e stage stage') {sub : Subscription} {i : StreamId}
    (ht : stage' t = .entering sub i) : W.originAfter e S' i = W.currentAfter e t := by
  have hstarts : e.starts ≠ some t := by
    intro hstarts
    have hbegins := (hturns.begun t hstarts).2
    rw [ht] at hbegins
    exact hbegins
  rw [currentAfter_of_ne hstarts]
  have hold : stage t = .entering sub i → W.originAfter e S' i = W.current t := by
    intro heq
    rw [originAfter_of_lt (h.entering t sub i heq).1]
    exact w.made t sub i heq
  by_cases hmoves : e = .moves t
  · have hleads := hturns.moved t hmoves
    rw [ht] at hleads
    generalize hs : stage t = s at hleads
    generalize hc : S'.pool.shared = c' at hleads
    cases hleads with
    | stays => exact hold hs
    | created =>
      have hnext : W.system.pool.shared.nextStream < S'.pool.shared.nextStream := by
        rw [hc]
        exact Nat.lt_succ_self _
      simp only [Watched.originAfter, hmoves]
      rw [if_pos hnext, Function.update_self]
  · exact hold (hturns.others t hmoves hstarts ▸ ht)

/-- A stream that is entered gets the value that a step hands out. -/
theorem Heeds.received_entered (w : Heeds W stage) (h : Attends W.system.pool stage)
    (hkeeps : KeepsValues W e) (hstep : Takes ofTypeStr W.system e S') {i : StreamId}
    {stream : SubscriptionStream} (hi : W.system.pool.shared.streams.lookup i = some stream)
    (hentry : W.system.pool.shared.inner.subscriptions.lookup stream.data.subuid = some ⟨i⟩)
    (hold : cared stream.data (W.heard (W.origin i)) <:+ W.got i) :
    cared stream.data (W.heardAfter e (W.origin i)) <:+ W.gotAfter e S' i := by
  cases hv : W.system.handsOut e with
  | none => simpa only [Watched.heardAfter, Watched.gotAfter, hv] using hold
  | some data =>
    cases hstep with
    | @moves t pool hmoves =>
      obtain ⟨-, o, next, hrest⟩ := h.handsOut hv
      have hwaiting : W.system.waiting i = stream.receiver := by
        simp [System.waiting, hi]
      have hroom := hkeeps.1.1 data hv stream.data.subuid ⟨i⟩ hentry stream hi
      have hstream : pool.shared.streams.lookup i = some (stream.offered data) := by
        rw [hmoves.eq_of_act hrest]
        exact streams_handOut h.distinct o data hentry hi
      have hafter : System.waiting { W.system with pool } i = (stream.offered data).receiver := by
        simp [System.waiting, hstream]
      simp only [Watched.heardAfter, Watched.gotAfter, hv, hwaiting, hafter]
      by_cases hcares : stream.data.caresAbout data.topicName = true
      · have hput : (stream.offered data).receiver.drop stream.receiver.length = [data] := by
          rw [SubscriptionStream.offered, if_pos ⟨hcares, hroom hcares⟩, List.drop_left]
        rw [hput]
        by_cases hwritten : W.origin i ∈ W.written
        · rw [if_pos hwritten, cared_append_of_cares hcares]
          exact List.suffix_append_self_iff.mpr hold
        · rw [if_neg hwritten, w.silent _ hwritten]
          exact List.nil_suffix
      · have hsame : stream.offered data = stream := by
          rw [SubscriptionStream.offered, if_neg fun hboth => hcares hboth.1]
        rw [hsame, List.drop_length, List.append_nil]
        by_cases hwritten : W.origin i ∈ W.written
        · rwa [if_pos hwritten, cared_append_of_not hcares]
        · rwa [if_neg hwritten]
    | _ => cases hv

/-- A stream that is held after a step was held before it, or its task is about to enter it. -/
theorem Turns.held (hturns : Turns W.system S' e stage stage') {i : StreamId}
    {stream' : SubscriptionStream} (hi : S'.pool.shared.streams.lookup i = some stream') :
    (∃ t, (stage' t).Pending i) ∨
      ∃ stream, W.system.pool.shared.streams.lookup i = some stream ∧
        stream.data = stream'.data := by
  by_cases hmoves : ∃ t, e = .moves t
  · obtain ⟨t, ht⟩ := hmoves
    have hleads := hturns.moved t ht
    have hshrinks := hleads.shrinks
    generalize hs : stage t = s at hleads hshrinks
    generalize hs' : stage' t = s' at hleads hshrinks
    generalize S'.pool.shared = c' at hleads hshrinks hi
    cases hleads with
    | created =>
      simp only [ClientState.create, KeyMap.lookup_insert] at hi
      split_ifs at hi with heq
      · refine .inl ⟨t, ?_⟩
        rw [hs']
        exact heq
      · exact .inr ⟨stream', hi, rfl⟩
    | stays | entered => exact .inr ⟨stream', hi, rfl⟩
    | _ => exact .inr ((hshrinks (by simp) (by simp)).streams i stream' hi)
  · rw [(hturns.same fun t ht => hmoves ⟨t, ht⟩).2.1] at hi
    exact .inr ⟨stream', hi, rfl⟩

/-- A task that was about to see to a stream still is, or it has entered it. -/
theorem Turns.pending (hturns : Turns W.system S' e stage stage') {i : StreamId}
    {stream' : SubscriptionStream} (hi : S'.pool.shared.streams.lookup i = some stream')
    (ht : (stage t).Pending i) : (stage' t).Pending i ∨ ∃ sub, stage t = .entering sub i := by
  by_cases hstarts : e.starts = some t
  · rw [(hturns.begun t hstarts).1] at ht
    exact ht.elim
  · by_cases hmoves : e = .moves t
    · have hleads := hturns.moved t hmoves
      generalize stage t = s at hleads ht
      generalize stage' t = s' at hleads
      generalize S'.pool.shared = c' at hleads hi
      cases hleads with
      | stays => exact .inl ht
      | @entered sub j =>
        have hij : i = j := ht
        exact .inr ⟨sub, by rw [hij]⟩
      | @dropped j =>
        have hij : i = j := ht
        simp [ClientState.release, hij] at hi
      | _ => exact ht.elim
    · rw [hturns.others t hmoves hstarts]
      exact .inl ht

theorem Heeds.step (w : Heeds W stage) (h : Attends W.system.pool stage)
    (hfound : Found W.system.pool stage) (hkeeps : KeepsValues W e)
    (hstep : Takes ofTypeStr W.system e S') (hturns : Turns W.system S' e stage stage') :
    Heeds (W.after e S') stage' where
  lt := w.lt_after
  fresh n hn := w.fresh_after hn
  silent n hn := w.silent_after hn
  alone t ht := w.alone_after h hstep hturns ht
  missed t sub ht := w.missed_turns h hkeeps hturns ht
  made t sub i ht := w.made_turns h hturns ht
  received i stream' hi := by
    rcases hturns.held hi with hpending | ⟨stream, hold, hdata⟩
    · exact .inl hpending
    · have horigin : W.originAfter e S' i = W.origin i :=
        originAfter_of_lt (h.streams_lt i stream hold)
      show _ ∨ cared stream'.data (W.heardAfter e (W.originAfter e S' i)) <:+ W.gotAfter e S' i
      rw [← hdata, horigin]
      by_cases hpending : ∃ t, (stage t).Pending i
      · obtain ⟨t, ht⟩ := hpending
        rcases hturns.pending hi ht with hstill | ⟨sub, hentering⟩
        · exact .inl ⟨t, hstill⟩
        · right
          have hwants : (stage t).wants = some sub := by rw [hentering]; rfl
          have hmissed := w.missed_after h hkeeps hwants
          rw [w.made t sub i hentering, (h.entering t sub i hentering).2.2 stream hold, hmissed]
          exact List.nil_suffix
      · have hentry := (hfound i stream hold).resolve_right hpending
        have hsuffix := (w.received i stream hold).resolve_left hpending
        exact .inr (w.received_entered h hkeeps hstep hold hentry hsuffix)

end Heeds

/-- No value is lost while a client subscribes. -/
theorem receives_while_subscribing {ofTypeStr : String → FrcType} {n : Nat} {W : Watched}
    (run : Watching ofTypeStr KeepsValues n W) : Receives W := by
  have hinv : ∃ stage, Attends W.system.pool stage ∧ Found W.system.pool stage ∧ Heeds W stage := by
    refine run.invariant (fun _ W => ∃ stage, Attends W.system.pool stage ∧
      Found W.system.pool stage ∧ Heeds W stage) ?_ ?_
    · intro W hinit
      obtain ⟨o, now, rfl⟩ := hinit
      refine ⟨_, .initial o now, ?_, ?_⟩
      · intro i stream hi
        cases hi
      · refine ⟨?_, ?_, ?_, ?_, ?_, ?_, ?_⟩
        · exact fun _ => Nat.one_pos
        · exact fun _ _ => ⟨List.not_mem_nil, List.not_mem_nil⟩
        · exact fun _ _ => rfl
        · exact fun _ ht => ht.elim
        · exact fun _ _ ht => by cases ht
        · exact fun _ _ _ ht => by cases ht
        · exact fun i stream hi => by cases hi
    · intro k W e W' _ hW hkeeps hstep
      obtain ⟨stage, h, hfound, w⟩ := hW
      obtain ⟨htakes, heq⟩ := hstep
      obtain ⟨stage', h', hturns, hfound'⟩ := h.step htakes
      refine ⟨stage', h', hfound' hkeeps.1 hfound, ?_⟩
      rw [heq]
      exact w.step h hfound hkeeps htakes hturns
  obtain ⟨stage, h, -, w⟩ := hinv
  intro i stream hi harrives hleaves
  apply (w.received i stream hi).resolve_left
  intro hpending
  obtain ⟨t, ht⟩ := hpending
  exact h.not_pending harrives hleaves t ht

section Perform

variable {o : IterOrder} {ofTypeStr : String → FrcType} {W W' : Watched}

/-- One event after the other, as long as they can happen and `ok` holds before each of them. -/
def Watched.takeAllIf (o : IterOrder) (ofTypeStr : String → FrcType) (ok : Watched → Event → Bool)
    (W : Watched) : List Event → Option Watched
  | [] => some W
  | e :: events =>
    if ok W e then
      (W.system.take o ofTypeStr e).bind fun S' => (W.after e S').takeAllIf o ofTypeStr ok events
    else
      none

theorem watching_takeAllIf {guard : Watched → Event → Prop} {ok : Watched → Event → Bool}
    (hok : ∀ W e, ok W e = true → guard W e) {n : Nat} {events : List Event}
    (run : Watching ofTypeStr guard n W) (h : W.takeAllIf o ofTypeStr ok events = some W') :
    ∃ n', Watching ofTypeStr guard n' W' := by
  induction events generalizing W n with
  | nil =>
    cases h
    exact ⟨n, run⟩
  | cons e events ih =>
    simp only [Watched.takeAllIf] at h
    split_ifs at h with hW
    obtain ⟨S', hfirst, h⟩ := Option.bind_eq_some_iff.mp h
    have hstep : Watches ofTypeStr W e (W.after e S') := ⟨takes_of_take hfirst, rfl⟩
    exact ih (run.step (hok W e hW) hstep) h

theorem system_takeAllIf {ok : Watched → Event → Bool} {events : List Event}
    (h : W.takeAllIf o ofTypeStr ok events = some W') :
    W.system.takeAll o ofTypeStr events = some W'.system := by
  induction events generalizing W with
  | nil =>
    cases h
    rfl
  | cons e events ih =>
    simp only [Watched.takeAllIf] at h
    split_ifs at h
    obtain ⟨S', hfirst, h⟩ := Option.bind_eq_some_iff.mp h
    exact Option.bind_eq_some_iff.mpr ⟨S', hfirst, ih h⟩

end Perform

/-- The server announces a topic and sends a value of it. -/
def valueComes : List Event :=
  [.incoming (.text (some [.announce ⟨"n", 0, "int", none, {}⟩]))] ++
    List.replicate 3 (.moves .socket) ++
    [.incoming (.binary [.array [.integer 0, .integer 0, .integer 2, .nil]])] ++
    List.replicate 3 (.moves .socket)

/-- A user has subscribed, the message for it is written, and a value of the topic is about to be
handed out. -/
def valueAfter : List Event :=
  subscribed ++ [.moves (.user 0)] ++ List.replicate 3 .written ++ valueComes

/-- The next step is not that of a subscription. -/
def aside : ClientM Unit → Bool
  | .act f _ => (f {}).inner.subscriptions.entries.isEmpty && (f {}).nextStream = 0
  | .lock _ (.act f _) => (f {}).inner.subscriptions.entries.isEmpty
  | _ => true

theorem not_subscribes_of_aside {S : System} {t : TaskId} (h : aside (S.pool.rest t) = true)
    (sub : Subscription) : ¬S.Subscribes t sub := by
  intro hsubscribes
  obtain hrest | ⟨i, hrest | hrest⟩ := hsubscribes <;>
    rw [hrest] at h <;>
    cases h

/-- The streams of the client have room. -/
def roomy (c : ClientState) : Bool :=
  c.streams.pairs.all fun e => e.2.receiver.length < streamCapacity

theorem room_of_roomy {c : ClientState} (h : roomy c = true) {i : StreamId}
    {stream : SubscriptionStream} (hi : c.streams.lookup i = some stream) :
    stream.receiver.length < streamCapacity :=
  of_decide_eq_true (List.all_eq_true.mp h _ ((KeyMap.mem_pairs _ _ _).mpr hi))

theorem hasRoom_of_roomy {c : ClientState} (h : roomy c = true) (data : MessageData)
    (entry : Int32 × InternalSub) : HasRoom c data entry :=
  fun _ hstream _ => room_of_roomy h hstream

/-- A value comes when the subscription is entered. -/
theorem receives_valueAfter : ∃ n W, Watching (fun _ => .raw) KeepsValues n W ∧
    (W.heard (W.origin 0)).length = 1 ∧ Receives W := by
  have hok : ∀ W e, (W.system.sparing e && (W.system.handsOut e).isNone) = true →
      KeepsValues W e := by
    intro W e h
    rw [Bool.and_eq_true, Option.isNone_iff_eq_none] at h
    refine ⟨keepsStreams_of_sparing h.1 ?_, ?_⟩ <;> simp [h.2]
  have hrun : ((Watched.initial .stored 0).takeAllIf .stored (fun _ => .raw)
      (fun W e => W.system.sparing e && (W.system.handsOut e).isNone) valueAfter).map
      (fun W => W.system.all aside && W.system.sparing (.moves .socket) &&
        roomy W.system.pool.shared &&
        (W.system.take .stored (fun _ => .raw) (.moves .socket)).any fun S' =>
          let W' := W.after (.moves .socket) S'
          decide ((W'.heard (W'.origin 0)).length = 1)) = some true := by decide +kernel
  obtain ⟨W, hW, hview⟩ := Option.map_eq_some_iff.mp hrun
  rw [Bool.and_eq_true, Bool.and_eq_true, Bool.and_eq_true] at hview
  obtain ⟨⟨⟨haside, hsparing⟩, hroomy⟩, hheard⟩ := hview
  have hstart : Watching (fun _ => .raw) KeepsValues 0 (.initial .stored 0) :=
    .start ⟨.stored, 0, rfl⟩
  obtain ⟨n, run⟩ := watching_takeAllIf hok hstart hW
  have hkeeps : KeepsValues W (.moves .socket) := by
    refine ⟨keepsStreams_of_sparing hsparing fun data _ k sub _ => hasRoom_of_roomy hroomy _ _, ?_⟩
    intro data _ t sub hsubscribes
    have haside := all_alone (system_takeAllIf hW) (by decide) haside rfl t
    exact absurd hsubscribes (not_subscribes_of_aside haside sub)
  cases hS : W.system.take .stored (fun _ => .raw) (.moves .socket) with
  | none =>
    rw [hS] at hheard
    cases hheard
  | some S' =>
    rw [hS, Option.any_some] at hheard
    have hstep : Watches (fun _ => .raw) W (.moves .socket) (W.after (.moves .socket) S') :=
      ⟨takes_of_take hS, rfl⟩
    have hrun := run.step hkeeps hstep
    exact ⟨_, _, hrun, of_decide_eq_true hheard, receives_while_subscribing hrun⟩

/-- The message for a subscription is written, and a value of the topic comes before the
subscription is entered. -/
def valueBetween : List Event :=
  List.replicate 15 (.moves .start) ++ [.call 0 (.subscribeWOptions ["n"] none)] ++
    List.replicate 2 (.moves (.user 0)) ++ List.replicate 3 .written ++ valueComes ++
    List.replicate 3 (.moves .socket) ++ List.replicate 4 (.moves (.user 0))

/-- The queues of the streams have room. -/
def StreamsHaveRoom (W : Watched) (_ : Event) : Prop :=
  ∀ i stream, W.system.pool.shared.streams.lookup i = some stream →
    stream.receiver.length < streamCapacity

/-- The stream never gets the value. -/
theorem value_lost_while_subscribing :
    ¬∀ ofTypeStr n W, Watching ofTypeStr StreamsHaveRoom n W → Receives W := by
  intro hclaim
  have hrun : ((Watched.initial .stored 0).takeAllIf .stored (fun _ => .raw)
      (fun W _ => roomy W.system.pool.shared) valueBetween).map (fun W =>
        W.system.all settled && (W.got 0).isEmpty &&
        (W.system.pool.shared.streams.lookup 0).any fun stream =>
          !(cared stream.data (W.heard (W.origin 0))).isEmpty) = some true := by decide +kernel
  obtain ⟨W, hW, hview⟩ := Option.map_eq_some_iff.mp hrun
  rw [Bool.and_eq_true, Bool.and_eq_true] at hview
  obtain ⟨⟨hsettled, hgot⟩, hheard⟩ := hview
  have hstart : Watching (fun _ => .raw) StreamsHaveRoom 0 (.initial .stored 0) :=
    .start ⟨.stored, 0, rfl⟩
  have hroom : ∀ W e, roomy W.system.pool.shared = true → StreamsHaveRoom W e :=
    fun _ _ h _ _ hi => room_of_roomy h hi
  obtain ⟨n, run⟩ := watching_takeAllIf hroom hstart hW
  obtain ⟨harrives, hleaves⟩ := settled_alone (system_takeAllIf hW) (by decide) hsettled 0
  cases hstream : W.system.pool.shared.streams.lookup 0 with
  | none =>
    rw [hstream] at hheard
    cases hheard
  | some stream =>
    have hsuffix := hclaim _ n W run 0 stream hstream harrives hleaves
    rw [List.isEmpty_iff.mp hgot, List.suffix_nil] at hsuffix
    rw [hstream, Option.any_some, hsuffix] at hheard
    cases hheard

end NetTables.Client
