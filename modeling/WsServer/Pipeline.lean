import WsServer.Ordering
import WsServer.Socket

/-! The whole way of a topic message, from `publish` to the socket of a subscriber. It waits in the topic
    channel, in the hand of the fanout, in the client queue and in the hand of the writer, one place
    behind the other, and a message changes places without overtaking another one. So what is published
    on a key after a connection subscribed is at every moment split between these places and the socket,
    apart from what was reported as lagged. -/

namespace WsServer

open Lib

variable {E : Ext} {i : ℕ} {c : Session E} {config : Config}

/-- The publish numbers of the topic messages among some items. -/
def numbersOf (l : List (Item E)) : List ℕ := (l.filterMap Item.message?).map Prod.fst

theorem numbersOf_append (l l' : List (Item E)) : numbersOf (l ++ l') = numbersOf l ++ numbersOf l' := by
  rw [numbersOf, List.filterMap_append, List.map_append]
  rfl

/-- Where the messages on the key of a connection are that were published since it subscribed. `es` is what
    happened at its socket. -/
structure Pipeline (p : ServerState E) (i : ℕ) (c : Session E) (es : List (ℕ × SocketEvent E)) : Prop where
  /-- Beside the pings, the socket carries the items that the writer took, in order. -/
  sent : dataOf es = c.written.map fun x => x.msg.intoWsMessage
  /-- A topic message on the socket has the bytes that were published on the key. -/
  genuine : ∀ (k : ℕ) (x : Item E) (seq : ℕ) (m : OutboundMessage E), c.written[k]? = some x →
    x.message? = some (seq, m) →
    ∃ pub : Publish E, p.shared.published[seq]? = some pub ∧ pub.key = c.topicKey ∧
      (dataOf es)[k]? = some (.binary pub.encoded)
  /-- They come in the order in which they were published, each once. -/
  ordered : (numbersOf c.written).Sublist (p.shared.wiring.seqsOn c.topicKey c.subMark)
  once : (numbersOf c.written).Pairwise (· < ·)
  /-- The messages of one connection come in the order of its frames. -/
  publisher : ∀ (s t j f f' : ℕ) (pub pub' : Publish E), [s, t].Sublist (numbersOf c.written) →
    p.shared.published[s]? = some pub → pub.origin = .ws j f →
    p.shared.published[t]? = some pub' → pub'.origin = .ws j f' → f < f'
  /-- While the connection listens, every message is passed or pending, and every one that was not
      reported as lagged is on the socket or in exactly one of the places before it. -/
  whole : c.listens = true → (p.shared.queues i).isOpen = true →
    ∃ l, p.shared.wiring.pending c.chan i = some l ∧
      p.shared.wiring.seqsOn c.topicKey c.subMark = c.passed.map Prod.fst ++ l.map (·.seq) ∧
      (c.passed.filter (·.2)).map Prod.fst = numbersOf c.written ++ numbersOf c.hand ++
        numbersOf (p.shared.queues i).buf ++ c.inHand.map Prod.fst

theorem msg_of_message? {x : Item E} {seq : ℕ} {m : OutboundMessage E} (h : x.message? = some (seq, m)) :
    x.msg = m := by
  unfold Item.message? at h
  split at h <;> cases h
  rfl

theorem numbers_placed {p : ServerState E} (h : Piped (p.shared.queues i) c)
    (hopen : (p.shared.queues i).isOpen = true) : p.shared.numbers i =
      numbersOf c.written ++ numbersOf c.hand ++ numbersOf (p.shared.queues i).buf := by
  rw [← numbersOf_append, ← numbersOf_append, ← h.live hopen]
  rfl

theorem numbers_written {p : ServerState E} (h : Piped (p.shared.queues i) c) :
    numbersOf c.written <+: p.shared.numbers i := by
  obtain ⟨rest, hrest⟩ := (List.prefix_append c.written c.hand).trans h.written
  refine ⟨numbersOf rest, ?_⟩
  rw [← numbersOf_append, hrest]
  rfl

/-- Two publications of one connection are of growing frames. -/
theorem Framewise.between {n : ℕ} {l : List (Publish E)} (h : Framewise n l) {a b j f f' : ℕ}
    {pub pub' : Publish E} (hlt : a < b) (ha : l[a]? = some pub) (ho : pub.origin = .ws j f)
    (hb : l[b]? = some pub') (ho' : pub'.origin = .ws j f') : f < f' := by
  obtain ⟨hsa, rfl⟩ := List.getElem?_eq_some_iff.mp ha
  obtain ⟨hsb, rfl⟩ := List.getElem?_eq_some_iff.mp hb
  exact List.pairwise_iff_getElem.mp h.order a b hsa hsb hlt j f f' ho ho'

theorem pipeline {s : ServerState E × List (ℕ × ℕ × SocketEvent E)} (h : SocketRuns config s)
    (hc : s.1.session i = some c) : Pipeline s.1 i c (entriesOf s.2 i) := by
  have hrun := h.runs
  have hpiped := piped_run hrun hc
  have hcursor := (cursor_run hrun).session i c hc
  have hsent := data_run h hc
  have hsub : (numbersOf c.written).Sublist (s.1.shared.wiring.seqsOn c.topicKey c.subMark) := by
    have hall := hcursor.sublist
    rw [List.map_append] at hall
    exact (numbers_written hpiped).sublist.trans ((List.sublist_append_left _ _).trans hall)
  have hsorted := (s.1.shared.wiring.seqsOn_pairwise c.topicKey c.subMark).sublist hsub
  refine ⟨hsent, ?_, hsub, hsorted, ?_, ?_⟩
  · -- genuine
    intro k x seq m hk hx
    have hitem : x ∈ (s.1.shared.queues i).placed :=
      hpiped.written.subset (List.mem_append_left _ (List.mem_of_getElem? hk))
    have hforwarded : (seq, m) ∈ forwarded (s.1.shared.queues i) := List.mem_filterMap.mpr ⟨x, hitem, hx⟩
    obtain ⟨pub, hpub, hm⟩ := hcursor.carried _ (List.mem_append_left _ hforwarded)
    have hseq : seq ∈ s.1.shared.wiring.seqsOn c.topicKey c.subMark := by
      refine hsub.subset (List.mem_map.mpr ⟨(seq, m), ?_, rfl⟩)
      exact List.mem_filterMap.mpr ⟨x, List.mem_of_getElem? hk, hx⟩
    obtain ⟨-, pub', hpub', hkey⟩ := Wiring.mem_seqsOn.mp hseq
    obtain rfl : pub = pub' := Option.some.inj (hpub.symm.trans hpub')
    refine ⟨pub, hpub, hkey, ?_⟩
    have hmsg : x.msg = .binary pub.encoded := (msg_of_message? hx).trans hm
    rw [hsent, List.getElem?_map, hk, Option.map_some, hmsg]
    rfl
  · -- publisher
    intro a b j f f' pub pub' hab ha ho hb ho'
    have hlt : a < b := List.pairwise_pair.mp (hsorted.sublist hab)
    exact (framewise_run hrun).shared.between hlt ha ho hb ho'
  · -- whole
    intro hlistens hopen
    obtain ⟨l, hl, hall, -⟩ := hcursor.live hlistens
    refine ⟨l, hl, hall, ?_⟩
    rw [← hcursor.forwarded, List.map_append]
    exact congrArg (· ++ _) (numbers_placed hpiped hopen)

/-- Bob's writer sends his `Ready` and the message of alice. -/
def bobSent : List (ServerAct Ext.plain) :=
  aliceToBob ++ steps 0 [.writer .pop, .writer (.wrote true), .writer .pop, .writer (.wrote true)]

theorem pipeline_bob : ∃ (p : ServerState Ext.plain) (c : Session Ext.plain)
    (es : List (ℕ × SocketEvent Ext.plain)), numbersOf c.written = [0] ∧ (dataOf es).length = 2 ∧
      Pipeline p 0 c es := by
  obtain ⟨p, log, h, hcheck⟩ := exec_log_check (server Ext.plain).next (journal Task.socket)
    (fun _ _ => true) (boot Ext.plain Config.plain) bobSent
    (fun (p : ServerState Ext.plain) log => decide ((dataOf (entriesOf log 0)).length = 2) &&
      (p.session 0).any fun c => decide (numbersOf c.written = [0]))
    (by decide +kernel)
  obtain ⟨hlen, hany⟩ := Bool.and_eq_true_iff.mp hcheck
  obtain ⟨c, hc, hnumbers⟩ := (Option.any_eq_true _ _).mp hany
  have hrun : SocketRuns Config.plain (p, log) := h.mono fun _ _ _ => trivial
  exact ⟨p, c, entriesOf log 0, of_decide_eq_true hnumbers, of_decide_eq_true hlen, pipeline hrun hc⟩

end WsServer
