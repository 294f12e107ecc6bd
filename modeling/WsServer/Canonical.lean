import WsServer.Labels

/-! Normalizing a topic name twice. `normalize_topic` trims before it strips the slashes and before it
    cuts, and either of the two can bare a blank that a second run trims away. A client that publishes
    to the name in its `Ready` has that name normalized again. -/

namespace WsServer

open Lib

/-- What is left of a requested name behind the outer blanks and the leading slashes. -/
def unslashed (topic : String) : List Char := (trim topic.toList).dropWhile (· = '/')

/-- No blank follows the leading slashes, and none stands where the name is cut. -/
def CutsClean (topic : String) : Prop :=
  ∀ k ∈ [0, 127], ∀ ch ∈ (unslashed topic)[k]?, isWhitespace ch = false

instance decidableCutsClean (topic : String) : Decidable (CutsClean topic) :=
  @List.decidableBAll ℕ (fun k => ∀ ch ∈ (unslashed topic)[k]?, isWhitespace ch = false)
    (fun k => Option.decidableForallMem (unslashed topic)[k]?) [0, 127]

/-! ### Trimming -/

theorem trim_sublist (l : List Char) : (trim l).Sublist l :=
  (List.rdropWhile_prefix isWhitespace _).sublist.trans (List.dropWhile_suffix isWhitespace).sublist

theorem trim_getLast? {l : List Char} {ch : Char} (h : (trim l).getLast? = some ch) :
    isWhitespace ch = false := by
  have hne : trim l ≠ [] := by
    intro hnil
    rw [hnil] at h
    cases h
  rw [List.getLast?_eq_some_getLast hne, Option.some.injEq] at h
  rw [← h]
  exact Bool.eq_false_iff.mpr (List.rdropWhile_last_not isWhitespace _ hne)

/-- A name is trimmed when neither end is blank. -/
theorem trim_eq_self_iff {l : List Char} : trim l = l ↔
    (∀ ch, l.head? = some ch → isWhitespace ch = false) ∧
      ∀ ch, l.getLast? = some ch → isWhitespace ch = false := by
  constructor
  · intro h
    refine ⟨fun ch hch => ?_, fun ch hch => trim_getLast? (by rwa [h])⟩
    have hdrop : l.dropWhile isWhitespace = l := by
      refine (List.dropWhile_suffix isWhitespace).sublist.eq_of_length_le ?_
      have hlen := (List.rdropWhile_prefix (l := l.dropWhile isWhitespace) isWhitespace).length_le
      rwa [← trim, h] at hlen
    have hhead := List.head?_dropWhile_not isWhitespace l
    rw [hdrop, hch] at hhead
    exact hhead
  · rintro ⟨hhead, hlast⟩
    have hdrop : l.dropWhile isWhitespace = l := by
      cases l with
      | nil => rfl
      | cons ch l => exact List.dropWhile_cons_of_neg (by rw [hhead ch rfl]; decide)
    rw [trim, hdrop, List.rdropWhile_eq_self_iff]
    intro hne
    rw [hlast _ (List.getLast?_eq_some_getLast hne)]
    decide

/-! ### Normalizing -/

theorem normalizeTopic_eq (topic : String) : normalizeTopic topic =
    if (unslashed topic).isEmpty then "public" else String.ofList ((unslashed topic).take 128) := rfl

theorem unslashed_length_le (topic : String) :
    (unslashed topic).length ≤ (trim topic.toList).length :=
  (List.dropWhile_suffix _).length_le

/-- Names that normalizing leaves alone. -/
theorem normalizeTopic_eq_self_iff {topic : String} (hne : topic.toList ≠ [])
    (hlen : topic.toList.length ≤ 128) (hhead : topic.toList.head? ≠ some '/') :
    normalizeTopic topic = topic ↔ trim topic.toList = topic.toList := by
  constructor
  · intro h
    rw [normalizeTopic_eq] at h
    split at h
    · rw [← h]
      decide
    · -- a shorter trimmed name would give a shorter result
      refine (trim_sublist _).eq_of_length_le ?_
      have hlist := congrArg (fun s : String => s.toList.length) h
      simp only [String.toList_ofList, List.length_take] at hlist
      have hle := unslashed_length_le topic
      omega
  · intro h
    have hunslashed : unslashed topic = topic.toList := by
      rw [unslashed, h]
      obtain ⟨ch, l, hl⟩ := List.exists_cons_of_ne_nil hne
      rw [hl] at hhead ⊢
      exact List.dropWhile_cons_of_neg (by simpa using hhead)
    rw [normalizeTopic_eq, hunslashed, if_neg (by simpa using hne), List.take_of_length_le hlen]
    exact String.ofList_toList

/-- The last character before the cut comes from the trimmed name, or from where the cut is. -/
theorem unslashed_getLast? {topic : String} {ch : Char}
    (h : (unslashed topic).getLast? = some ch) : isWhitespace ch = false := by
  obtain ⟨slashes, hsplit⟩ := List.dropWhile_suffix (l := trim topic.toList) (· = '/')
  refine trim_getLast? (l := topic.toList) ?_
  rw [← hsplit, List.getLast?_append]
  rw [unslashed] at h
  rw [h]
  rfl

/-- The ends of a normalized name. -/
theorem trim_normalizeTopic_iff (topic : String) :
    trim (normalizeTopic topic).toList = (normalizeTopic topic).toList ↔ CutsClean topic := by
  rw [normalizeTopic_eq]
  split
  · rename_i hempty
    rw [List.isEmpty_iff] at hempty
    exact iff_of_true (by decide) fun k _ ch hch => by rw [hempty] at hch; cases hch
  · rw [String.toList_ofList, trim_eq_self_iff, List.head?_take, List.getLast?_take, CutsClean]
    simp only [List.forall_mem_cons, List.not_mem_nil, false_implies, implies_true, and_true,
      List.head?_eq_getElem?]
    refine and_congr (by simp) ⟨fun h ch hch => h ch ?_, fun h ch hch => ?_⟩
    · rw [if_neg (by decide), Option.mem_def.mp hch]
      rfl
    · cases hcut : (unslashed topic)[127]? with
      | some ch' =>
        rw [if_neg (by decide), hcut] at hch
        cases hch
        exact h ch hcut
      | none =>
        rw [if_neg (by decide), hcut] at hch
        exact unslashed_getLast? hch

theorem normalizeTopic_normalizeTopic_iff (topic : String) :
    normalizeTopic (normalizeTopic topic) = normalizeTopic topic ↔ CutsClean topic := by
  have hlength := normalizeTopic_length topic
  rw [normalizeTopic_eq_self_iff (List.length_pos_iff.mp hlength.1) hlength.2
    (normalizeTopic_head topic), trim_normalizeTopic_iff]

/-! ### Publishing to the own topic -/

/-- A publish that names a topic goes to the key of that topic in its tenant. -/
theorem publishing_key {E : Ext} {w : World E} {c : Session E} {topic : String}
    {requestId : Option String} {payload : E.Value} {key : String} {encoded : E.Bytes}
    (h : (Reader.handleClientEvent w c (.publish (some topic) requestId payload)).2.reader =
      .publishing key encoded) : key = tenantTopic c.identity.tenantId (normalizeTopic topic) := by
  simp only [Reader.handleClientEvent, Option.map_some, Option.getD_some] at h
  split at h
  · cases h
    rfl
  · simp only [Session.sendError] at h
    split at h <;> cases h

theorem tenantTopic_inj {t a b : String} : tenantTopic t a = tenantTopic t b ↔ a = b := by
  rw [← String.toList_inj, tenantTopic_toList, tenantTopic_toList, List.append_cancel_left_eq,
    List.cons.injEq, String.toList_inj]
  exact and_iff_right rfl

/-- A name is normalized for good exactly when it is cut clean; and then, only then, a publish to the
    name in its `Ready` goes to the connection's own key. -/
theorem canonical_iff (topic : String) :
    (normalizeTopic (normalizeTopic topic) = normalizeTopic topic ↔ CutsClean topic) ∧
      ∀ (E : Ext) (config : Config) (p : ServerState E), Runs config always p →
        ∀ i c, p.session i = some c → c.query.topic = topic → ':' ∉ c.identity.tenantId.toList →
          (∀ y ∈ (p.shared.queues i).placed, y.source = .ready →
            y.IsReadyOn (extractTopic c.topicKey)) ∧
          (c.reader ≠ .off → ∀ requestId payload key encoded,
            (Reader.handleClientEvent p.shared c
              (.publish (some (extractTopic c.topicKey)) requestId payload)).2.reader =
                .publishing key encoded → (key = c.topicKey ↔ CutsClean topic)) := by
  refine ⟨normalizeTopic_normalizeTopic_iff topic, fun E config p h i c hc htopic hcolon => ⟨?_, ?_⟩⟩
  · intro y hy hsource
    obtain ⟨encoded, hencode, rfl⟩ := ready_own h hc hy hsource
    exact ⟨_, encoded, hencode, rfl⟩
  · intro hreader requestId payload key encoded hpublish
    have hshaped := shaped_run h hc
    have hkey : c.topicKey = tenantTopic c.identity.tenantId (normalizeTopic topic) := by
      rw [← htopic]
      refine hshaped.topicKey (Nat.one_le_iff_ne_zero.mpr fun hzero => hreader (hshaped.reader ?_))
      rw [hzero]
      decide
    rw [publishing_key hpublish, hkey, tenantTopic_inj, extractTopic_tenantTopic hcolon,
      normalizeTopic_normalizeTopic_iff]

/-- A blank behind the slash outlives one run. -/
theorem normalizeTopic_not_canonical :
    ¬ ∀ topic : String, normalizeTopic (normalizeTopic topic) = normalizeTopic topic := by
  intro hall
  exact absurd (hall "/ x") (by decide)

/-- The subscriber of `public` publishes to `public`. -/
theorem canonical_iff_public : ∃ (p : ServerState Ext.plain) (c : Session Ext.plain),
    p.session 0 = some c ∧ c.topicKey = "default:public" ∧
      ∀ requestId payload key encoded, (Reader.handleClientEvent p.shared c
        (.publish (some (extractTopic c.topicKey)) requestId payload)).2.reader =
          .publishing key encoded → (key = c.topicKey ↔ CutsClean "public") := by
  obtain ⟨p, hp, hc⟩ := play_check Config.plain (fun _ _ => true)
    (subscriberReady ++ steps 0
      [.reader (.frame (.text "\x7b\"kind\":\"publish\",\"payload\":\"hi\"\x7d")), .reader .tenantRate])
    (fun p => (p.session 0).any fun c => c.reader.hand.isSome && decide (c.query.topic = "public" ∧
      c.identity.tenantId = "default" ∧ c.topicKey = "default:public")) (by decide +kernel)
  obtain ⟨c, hc0, hc⟩ := (Option.any_eq_true _ _).mp hc
  rw [Bool.and_eq_true, decide_eq_true_eq] at hc
  obtain ⟨hhand, htopic, htenant, hkey⟩ := hc
  refine ⟨p, c, hc0, hkey, ((canonical_iff "public").2 Ext.plain Config.plain p hp.toAlways 0 c hc0
    htopic ?_).2 ?_⟩
  · rw [htenant]
    decide
  · intro hoff
    rw [hoff] at hhand
    cases hhand

end WsServer
