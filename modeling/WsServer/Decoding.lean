import WsServer.WebClient

/-! What the web client's decoder accepts. `build` reads a message as the decoder does, `decodes_iff` says
    that the decoder accepts exactly the encodings of the messages that `build` can read, and `framed`
    that it never takes a part of a message, or more than one, for a whole one. -/

namespace WsServer

open Lib

variable (js : Browser)

mutual

/-- The value of a message, or the first error on the way. -/
def build : Msg → Except DecodeError JsValue
  | .nil => .ok .null
  | .bool b => .ok (.bool b)
  | .int (.signed .w64) _ => .error (.unsupported 0xd3)
  | .int (.unsigned .w64) n => .ok (.number (roundToF64 n.toNat))
  | .int _ n => .ok (.number n)
  | .float32 _ => .error (.unsupported 0xca)
  | .float64 _ => .error (.unsupported 0xcb)
  | .str _ bytes => .ok (.string (js.textDecode bytes))
  | .array _ items => do
    let values ← buildAll items
    pure (.array values)
  | .map _ entries => buildEntries (.base, []) entries

def buildAll : List Msg → Except DecodeError (List JsValue)
  | [] => .ok []
  | x :: xs => do
    let value ← build x
    let rest ← buildAll xs
    pure (value :: rest)

def buildEntries (obj : JsObject) :
    List (Msg × Msg) → Except DecodeError JsValue
  | [] => .ok (.object obj.1 obj.2)
  | (k, v) :: entries => do
    let key ← build k
    let value ← build v
    match js.toPropertyKey key with
    | .ok name => buildEntries (assign obj name value) entries
    | .error e => .error (.key e)

end

variable {js}

/-! ### Every message is read as `build` says -/

theorem takes_i8 : Takes .incomplete 1 readI8 fun xs => twosComplement 1 (fromBytes xs) := by
  refine (takes_u8.map fun value : ℕ => if 0x7f < value then (value : ℤ) - 0x100
    else (value : ℤ)).congr ?_
  intro xs _
  simp only [twosComplement]
  split_ifs <;> omega

theorem takes_i16 : Takes .incomplete 2 readI16 fun xs => twosComplement 2 (fromBytes xs) := by
  refine (takes_u16.map fun value : ℕ => if 0x7fff < value then (value : ℤ) - 0x10000
    else (value : ℤ)).congr ?_
  intro xs _
  simp only [twosComplement]
  split_ifs <;> omega

theorem takes_i32 : Takes .incomplete 4 readI32 fun xs => twosComplement 4 (fromBytes xs) := by
  refine (takes_u32.map fun value : ℕ => if 2 ^ 31 ≤ value then (value : ℤ) - 2 ^ 32
    else (value : ℤ)).congr ?_
  intro xs _
  simp only [twosComplement]
  split_ifs <;> omega

theorem readString_encode {bytes : List UInt8} (rest : List UInt8) :
    readString js bytes.length (bytes ++ rest) = .ok (.string (js.textDecode bytes), rest) :=
  ((Takes.take bytes.length).map fun bytes => JsValue.string (js.textDecode bytes)).full rest rfl

theorem decodeValue_cons (n : ℕ) (b : UInt8) (bs : List UInt8) :
    decodeValue js (n + 1) (b :: bs) = decodeMarker js (decodeValue js n) b.toNat bs := rfl

theorem toNat_marker {n : ℕ} (h : n < 256) : (UInt8.ofNat n).toNat = n := by
  rw [UInt8.toNat_ofNat', Nat.mod_eq_of_lt h]

theorem low_bits {k n base : ℕ} (h : n < 2 ^ k) (hbase : 2 ^ k ∣ base) :
    (base + n) &&& (2 ^ k - 1) = n := by
  obtain ⟨m, rfl⟩ := hbase
  rw [Nat.and_two_pow_sub_one_eq_mod, Nat.mul_add_mod, Nat.mod_eq_of_lt h]

section markers
variable {d : Decode JsValue} {n : ℕ}

theorem decodeMarker_positive (h : n < 128) : decodeMarker js d n = pure (.number n) := by
  rw [decodeMarker, if_pos (by omega)]

theorem decodeMarker_negative (h : n < 32) :
    decodeMarker js d (0xe0 + n) = pure (.number ((n : ℤ) - 32)) := by
  rw [decodeMarker, if_neg (by omega), if_pos (by omega)]
  congr 2
  omega

theorem decodeMarker_str (h : n < 32) : decodeMarker js d (0xa0 + n) = readString js n := by
  rw [decodeMarker, if_neg (by omega), if_neg (by omega), if_pos (by omega)]
  exact congrArg _ (low_bits (k := 5) h (by decide))

theorem decodeMarker_array (h : n < 16) : decodeMarker js d (0x90 + n) = decodeArray d n := by
  rw [decodeMarker, if_neg (by omega), if_neg (by omega), if_neg (by omega), if_pos (by omega)]
  exact congrArg _ (low_bits (k := 4) h (by decide))

theorem decodeMarker_map (h : n < 16) : decodeMarker js d (0x80 + n) = decodeMap js d n := by
  rw [decodeMarker, if_neg (by omega), if_neg (by omega), if_neg (by omega), if_neg (by omega),
    if_pos (by omega)]
  exact congrArg _ (low_bits (k := 4) h (by decide))

/-- The other markers go to the `switch`. -/
theorem decodeMarker_switch (h : 0xc0 ≤ n) (h' : n < 0xe0) :
    decodeMarker js d n = decodeSwitch js d n := by
  rw [decodeMarker, if_neg (by omega), if_neg (by omega), if_neg (by omega), if_neg (by omega),
    if_neg (by omega)]

end markers

theorem decodeValue_switch {b : UInt8} {m : ℕ} (hb : b.toNat = m) (h : 0xc0 ≤ m) (h' : m < 0xe0) (n : ℕ)
    (bs : List UInt8) : decodeValue js (n + 1) (b :: bs) = decodeSwitch js (decodeValue js n) m bs := by
  rw [decodeValue_cons, hb, decodeMarker_switch h h']

/-- A length and what is read with it. -/
theorem read_length {k m : ℕ} {d : Decode ℕ} {α : Type} (hd : Takes .incomplete k d fromBytes)
    (h : m < 256 ^ k) (f : ℕ → Decode α) (bs : List UInt8) :
    (d >>= f) (bigEndian k m ++ bs) = f m bs := by
  have hread := hd.full bs (length_bigEndian k m)
  rw [fromBytes_bigEndian h] at hread
  exact Decoder.bind_of_ok hread

theorem decodeValue_int {form : IntForm} {m : ℤ} (h : form.Holds m) (n : ℕ) (rest : List UInt8) :
    decodeValue js (n + 1) (form.encode m ++ rest) =
      (build js (.int form m)).map fun v => (v, rest) := by
  cases form with
  | positive =>
    obtain ⟨hlo, hhi⟩ := h
    rw [IntForm.encode, List.singleton_append, decodeValue_cons, toNat_marker (by omega),
      decodeMarker_positive (by omega), Int.toNat_of_nonneg hlo]
    rfl
  | negative =>
    obtain ⟨hlo, hhi⟩ := h
    obtain ⟨k, hk, rfl⟩ : ∃ k : ℕ, k < 32 ∧ m = (k : ℤ) - 32 := ⟨(m + 32).toNat, by omega, by omega⟩
    rw [IntForm.encode, List.singleton_append, decodeValue_cons,
      show ((k : ℤ) - 32 + 256).toNat = 0xe0 + k by omega, toNat_marker (by omega),
      decodeMarker_negative hk]
    rfl
  | unsigned w =>
    have hm := fromBytes_unsigned h
    have hlen := length_bigEndian w.bytes m.toNat
    rw [IntForm.encode, List.cons_append, decodeValue_cons]
    generalize bigEndian w.bytes m.toNat = xs at hm hlen
    subst hm
    cases w
    · exact (takes_u8.map fun k => JsValue.number k).full rest hlen
    · exact (takes_u16.map fun k => JsValue.number k).full rest hlen
    · exact (takes_u32.map fun k => JsValue.number k).full rest hlen
    · exact (takes_u64.map fun k => JsValue.number k).full rest hlen
  | signed w =>
    have hm := fromBytes_signed h
    have hlen := length_bigEndian w.bytes (m % 256 ^ w.bytes).toNat
    rw [IntForm.encode, List.cons_append, decodeValue_cons]
    generalize bigEndian w.bytes (m % 256 ^ w.bytes).toNat = xs at hm hlen
    subst hm
    cases w
    · exact (takes_i8.map fun k => JsValue.number k).full rest hlen
    · exact (takes_i16.map fun k => JsValue.number k).full rest hlen
    · exact (takes_i32.map fun k => JsValue.number k).full rest hlen
    · rfl

/-- The header of a string of a well-formed message leads to its bytes. -/
theorem decodeValue_str {form : StrForm} {bytes : List UInt8} (h : bytes.length < form.bound) (n : ℕ)
    (rest : List UInt8) :
    decodeValue js (n + 1) (form.header bytes.length ++ (bytes ++ rest)) =
      .ok (.string (js.textDecode bytes), rest) := by
  cases form with
  | fix =>
    rw [StrForm.bound] at h
    rw [StrForm.header, List.singleton_append, decodeValue_cons, toNat_marker (by omega),
      decodeMarker_str h]
    exact readString_encode rest
  | w8 =>
    rw [StrForm.header, List.cons_append, decodeValue_switch (m := 0xd9) rfl (by decide) (by decide)]
    exact (read_length takes_u8 h _ _).trans (readString_encode rest)
  | w16 =>
    rw [StrForm.header, List.cons_append, decodeValue_switch (m := 0xda) rfl (by decide) (by decide)]
    exact (read_length takes_u16 h _ _).trans (readString_encode rest)
  | w32 =>
    rw [StrForm.header, List.cons_append, decodeValue_switch (m := 0xdb) rfl (by decide) (by decide)]
    exact (read_length takes_u32 h _ _).trans (readString_encode rest)

theorem decodeValue_arrayHeader {form : SeqForm} {k : ℕ} (h : k < form.bound) (n : ℕ)
    (bs : List UInt8) :
    decodeValue js (n + 1) (form.arrayHeader k ++ bs) = decodeArray (decodeValue js n) k bs := by
  cases form with
  | fix =>
    rw [SeqForm.bound] at h
    rw [SeqForm.arrayHeader, List.singleton_append, decodeValue_cons, toNat_marker (by omega),
      decodeMarker_array h]
  | w16 =>
    rw [SeqForm.arrayHeader, List.cons_append, decodeValue_switch (m := 0xdc) rfl (by decide) (by decide)]
    exact read_length takes_u16 h _ bs
  | w32 =>
    rw [SeqForm.arrayHeader, List.cons_append, decodeValue_switch (m := 0xdd) rfl (by decide) (by decide)]
    exact read_length takes_u32 h _ bs

theorem decodeValue_mapHeader {form : SeqForm} {k : ℕ} (h : k < form.bound) (n : ℕ)
    (bs : List UInt8) :
    decodeValue js (n + 1) (form.mapHeader k ++ bs) = decodeMap js (decodeValue js n) k bs := by
  cases form with
  | fix =>
    rw [SeqForm.bound] at h
    rw [SeqForm.mapHeader, List.singleton_append, decodeValue_cons, toNat_marker (by omega),
      decodeMarker_map h]
  | w16 =>
    rw [SeqForm.mapHeader, List.cons_append, decodeValue_switch (m := 0xde) rfl (by decide) (by decide)]
    exact read_length takes_u16 h _ bs
  | w32 =>
    rw [SeqForm.mapHeader, List.cons_append, decodeValue_switch (m := 0xdf) rfl (by decide) (by decide)]
    exact read_length takes_u32 h _ bs

mutual

/-- With room for its depth, a message is read as `build` says and what follows it is left. -/
theorem decodeValue_encode : ∀ {t : Msg} {n : ℕ} (rest : List UInt8), t.WellFormed → t.depth ≤ n →
    decodeValue js n (t.encode ++ rest) = (build js t).map fun v => (v, rest)
  | t, 0, _, _, hd => by cases t <;> simp [Msg.depth] at hd
  | .nil, _ + 1, _, _, _ => rfl
  | .bool b, _ + 1, _, _, _ => by cases b <;> rfl
  | .int form m, n + 1, rest, hw, _ => decodeValue_int hw n rest
  | .float32 _, _ + 1, _, _, _ => rfl
  | .float64 _, _ + 1, _, _, _ => rfl
  | .str form bytes, n + 1, rest, hw, _ => by
    rw [Msg.encode, List.append_assoc]
    exact decodeValue_str hw n rest
  | .array form items, n + 1, rest, hw, hd => by
    obtain ⟨hlen, hitems⟩ := hw
    rw [Msg.depth, Nat.add_le_add_iff_right] at hd
    rw [Msg.encode, List.append_assoc, decodeValue_arrayHeader hlen]
    exact Decoder.bind_map (decodeItems_encode rest hitems hd) fun _ => rfl
  | .map form entries, n + 1, rest, hw, hd => by
    obtain ⟨hlen, hentries⟩ := hw
    rw [Msg.depth, Nat.add_le_add_iff_right] at hd
    rw [Msg.encode, List.append_assoc, decodeValue_mapHeader hlen]
    exact decodeEntries_encode _ rest hentries hd

theorem decodeItems_encode : ∀ {items : List Msg} {n : ℕ} (rest : List UInt8),
    Msg.AllWellFormed items → Msg.depthAll items ≤ n →
    decodeItems (decodeValue js n) items.length (Msg.encodeAll items ++ rest) =
      (buildAll js items).map fun vs => (vs, rest)
  | [], _, _, _, _ => rfl
  | x :: xs, n, rest, hw, hd => by
    rw [Msg.depthAll, Nat.max_le] at hd
    rw [Msg.encodeAll, List.append_assoc]
    refine Decoder.bind_map (decodeValue_encode _ hw.1 hd.1) fun v => ?_
    exact Decoder.bind_map (decodeItems_encode rest hw.2 hd.2) fun _ => rfl

theorem decodeEntries_encode : ∀ {entries : List (Msg × Msg)} {n : ℕ}
    (obj : JsObject) (rest : List UInt8),
    Msg.EntriesWellFormed entries → Msg.depthEntries entries ≤ n →
    decodeEntries js (decodeValue js n) entries.length obj (Msg.encodeEntries entries ++ rest) =
      (buildEntries js obj entries).map fun v => (v, rest)
  | [], _, _, _, _, _ => rfl
  | (k, v) :: entries, n, obj, rest, hw, hd => by
    obtain ⟨hk, hv, hrest⟩ := hw
    rw [Msg.depthEntries, Nat.max_le, Nat.max_le] at hd
    obtain ⟨hdk, hdv, hdrest⟩ := hd
    rw [Msg.encodeEntries, List.append_assoc, List.append_assoc]
    refine Decoder.bind_map (decodeValue_encode _ hk hdk) fun key => ?_
    refine Decoder.bind_map (decodeValue_encode _ hv hdv) fun value => ?_
    cases js.toPropertyKey key with
    | ok name => exact decodeEntries_encode _ rest hrest hdrest
    | error e => rfl

end

/-! ### What is read is a message -/

/-- The bytes begin with a message that is read as `v`, and `rest` follows it. -/
def Begins (js : Browser) (n : ℕ) (bs : List UInt8) (v : JsValue) (rest : List UInt8) : Prop :=
  ∃ t : Msg, t.WellFormed ∧ t.depth ≤ n ∧ bs = t.encode ++ rest ∧ build js t = .ok v

theorem Begins.leaf {n : ℕ} {t : Msg} {bs rest : List UInt8} {v : JsValue} (hw : t.WellFormed)
    (hd : t.depth = 1) (he : bs = t.encode ++ rest) (hv : build js t = .ok v) :
    Begins js (n + 1) bs v rest := ⟨t, hw, by omega, he, hv⟩

theorem length_inv {k : ℕ} {d : Decode ℕ} {f : ℕ → Decode JsValue} {bs rest : List UInt8} {v : JsValue}
    (hd : Takes .incomplete k d fromBytes) (h : (d >>= f) bs = .ok (v, rest)) :
    ∃ m mid, m < 256 ^ k ∧ bs = bigEndian k m ++ mid ∧ f m mid = .ok (v, rest) := by
  obtain ⟨m, mid, hm, hf⟩ := Decoder.bind_ok.mp h
  obtain ⟨xs, rfl, rfl, rfl⟩ := hd.inv hm
  exact ⟨_, mid, fromBytes_lt xs, by rw [bigEndian_fromBytes], hf⟩

theorem readString_inv {k : ℕ} {bs rest : List UInt8} {v : JsValue}
    (h : readString js k bs = .ok (v, rest)) :
    ∃ bytes, bytes.length = k ∧ bs = bytes ++ rest ∧ v = .string (js.textDecode bytes) :=
  ((Takes.take k).map fun bytes => JsValue.string (js.textDecode bytes)).inv h

theorem decodeItems_inv {n : ℕ}
    (ih : ∀ {bs v rest}, decodeValue js n bs = .ok (v, rest) → Begins js n bs v rest) :
    ∀ {k : ℕ} {bs rest : List UInt8} {vs : List JsValue},
      decodeItems (decodeValue js n) k bs = .ok (vs, rest) →
      ∃ items : List Msg, items.length = k ∧ Msg.AllWellFormed items ∧ Msg.depthAll items ≤ n ∧
        bs = Msg.encodeAll items ++ rest ∧ buildAll js items = .ok vs
  | 0, bs, rest, vs, h => by
    cases h
    exact ⟨[], rfl, trivial, Nat.zero_le n, rfl, rfl⟩
  | k + 1, bs, rest, vs, h => by
    obtain ⟨v, mid, hv, h⟩ := Decoder.bind_ok.mp h
    obtain ⟨vs', mid', hvs, h⟩ := Decoder.bind_ok.mp h
    cases h
    obtain ⟨t, hw, hd, rfl, hb⟩ := ih hv
    obtain ⟨items, rfl, hws, hds, rfl, hbs⟩ := decodeItems_inv ih hvs
    refine ⟨t :: items, rfl, ⟨hw, hws⟩, ?_, by rw [Msg.encodeAll, List.append_assoc], ?_⟩
    · rw [Msg.depthAll]
      exact Nat.max_le.mpr ⟨hd, hds⟩
    · rw [buildAll, hb, hbs]
      rfl

theorem decodeEntries_inv {n : ℕ}
    (ih : ∀ {bs v rest}, decodeValue js n bs = .ok (v, rest) → Begins js n bs v rest) :
    ∀ {k : ℕ} {obj : JsObject} {bs rest : List UInt8} {v : JsValue},
      decodeEntries js (decodeValue js n) k obj bs = .ok (v, rest) →
      ∃ entries : List (Msg × Msg), entries.length = k ∧ Msg.EntriesWellFormed entries ∧
        Msg.depthEntries entries ≤ n ∧ bs = Msg.encodeEntries entries ++ rest ∧
        buildEntries js obj entries = .ok v
  | 0, obj, bs, rest, v, h => by
    cases h
    exact ⟨[], rfl, trivial, Nat.zero_le n, rfl, rfl⟩
  | k + 1, obj, bs, rest, v, h => by
    obtain ⟨key, mid, hkey, hafter⟩ := Decoder.bind_ok.mp h
    obtain ⟨value, mid', hvalue, hlast⟩ := Decoder.bind_ok.mp hafter
    cases hname : js.toPropertyKey key with
    | error e =>
      simp only [hname] at hlast
      cases hlast
    | ok name =>
      simp only [hname] at hlast
      obtain ⟨tk, hwk, hdk, rfl, hbk⟩ := ih hkey
      obtain ⟨tv, hwv, hdv, rfl, hbv⟩ := ih hvalue
      obtain ⟨entries, rfl, hws, hds, rfl, hbs⟩ := decodeEntries_inv ih hlast
      refine ⟨(tk, tv) :: entries, rfl, ⟨hwk, hwv, hws⟩, ?_, ?_, ?_⟩
      · rw [Msg.depthEntries]
        exact Nat.max_le.mpr ⟨hdk, Nat.max_le.mpr ⟨hdv, hds⟩⟩
      · rw [Msg.encodeEntries, List.append_assoc, List.append_assoc]
      · simp only [buildEntries, hbk, hbv, hname, bind, Except.bind]
        exact hbs

theorem begins_array {n k : ℕ} (form : SeqForm) {bs rest : List UInt8} {v : JsValue}
    (ih : ∀ {bs v rest}, decodeValue js n bs = .ok (v, rest) → Begins js n bs v rest)
    (hk : k < form.bound) (h : decodeArray (decodeValue js n) k bs = .ok (v, rest)) :
    Begins js (n + 1) (form.arrayHeader k ++ bs) v rest := by
  obtain ⟨vs, mid, hvs, h⟩ := Decoder.bind_ok.mp h
  cases h
  obtain ⟨items, rfl, hw, hd, rfl, hb⟩ := decodeItems_inv ih hvs
  refine ⟨.array form items, ⟨hk, hw⟩, ?_, by rw [Msg.encode, List.append_assoc], ?_⟩
  · rw [Msg.depth]
    omega
  · rw [build, hb]
    rfl

theorem begins_map {n k : ℕ} (form : SeqForm) {bs rest : List UInt8} {v : JsValue}
    (ih : ∀ {bs v rest}, decodeValue js n bs = .ok (v, rest) → Begins js n bs v rest)
    (hk : k < form.bound) (h : decodeMap js (decodeValue js n) k bs = .ok (v, rest)) :
    Begins js (n + 1) (form.mapHeader k ++ bs) v rest := by
  obtain ⟨entries, rfl, hw, hd, rfl, hb⟩ := decodeEntries_inv ih h
  refine ⟨.map form entries, ⟨hk, hw⟩, ?_, by rw [Msg.encode, List.append_assoc], hb⟩
  rw [Msg.depth]
  omega

theorem begins_str {n k : ℕ} (form : StrForm) {bs rest : List UInt8} {v : JsValue} (hk : k < form.bound)
    (h : readString js k bs = .ok (v, rest)) : Begins js (n + 1) (form.header k ++ bs) v rest := by
  obtain ⟨bytes, rfl, rfl, rfl⟩ := readString_inv h
  exact .leaf (t := .str form bytes) hk rfl (by rw [Msg.encode, List.append_assoc]) rfl

/-- The bytes of an unsigned number. -/
theorem encode_unsigned {w : Width} {xs : List UInt8} (h : xs.length = w.bytes) :
    (IntForm.unsigned w).encode (fromBytes xs) = UInt8.ofNat (0xcc + w.index) :: xs := by
  rw [IntForm.encode, (unsigned_bytes h).2]

theorem encode_signed {w : Width} {xs : List UInt8} (h : xs.length = w.bytes) :
    (IntForm.signed w).encode (twosComplement w.bytes (fromBytes xs)) =
      UInt8.ofNat (0xd0 + w.index) :: xs := by
  rw [IntForm.encode, (signed_bytes h).2]

theorem begins_unsigned {n : ℕ} {w : Width} {xs rest : List UInt8} {v : JsValue}
    (h : xs.length = w.bytes) (hv : build js (.int (.unsigned w) (fromBytes xs)) = .ok v) :
    Begins js (n + 1) (UInt8.ofNat (0xcc + w.index) :: (xs ++ rest)) v rest :=
  .leaf (t := .int (.unsigned w) (fromBytes xs)) (unsigned_bytes h).1 rfl
    (by rw [Msg.encode, encode_unsigned h]; rfl) hv

theorem begins_signed {n : ℕ} {w : Width} {xs rest : List UInt8} {v : JsValue} (h : xs.length = w.bytes)
    (hv : build js (.int (.signed w) (twosComplement w.bytes (fromBytes xs))) = .ok v) :
    Begins js (n + 1) (UInt8.ofNat (0xd0 + w.index) :: (xs ++ rest)) v rest :=
  .leaf (t := .int (.signed w) _) (signed_bytes h).1 rfl (by rw [Msg.encode, encode_signed h]; rfl) hv

theorem begins_switch {n m : ℕ} {bs rest : List UInt8} {v : JsValue}
    (ih : ∀ {bs v rest}, decodeValue js n bs = .ok (v, rest) → Begins js n bs v rest)
    (h : decodeSwitch js (decodeValue js n) m bs = .ok (v, rest)) :
    Begins js (n + 1) (UInt8.ofNat m :: bs) v rest := by
  unfold decodeSwitch at h
  split at h
  · cases h
    exact .leaf (t := .nil) trivial rfl rfl rfl
  · cases h
    exact .leaf (t := .bool false) trivial rfl rfl rfl
  · cases h
    exact .leaf (t := .bool true) trivial rfl rfl rfl
  · obtain ⟨xs, hlen, rfl, rfl⟩ := (takes_u8.map fun k => JsValue.number k).inv h
    exact begins_unsigned (w := .w8) hlen rfl
  · obtain ⟨xs, hlen, rfl, rfl⟩ := (takes_u16.map fun k => JsValue.number k).inv h
    exact begins_unsigned (w := .w16) hlen rfl
  · obtain ⟨xs, hlen, rfl, rfl⟩ := (takes_u32.map fun k => JsValue.number k).inv h
    exact begins_unsigned (w := .w32) hlen rfl
  · obtain ⟨xs, hlen, rfl, rfl⟩ := (takes_u64.map fun k => JsValue.number k).inv h
    exact begins_unsigned (w := .w64) hlen rfl
  · obtain ⟨xs, hlen, rfl, rfl⟩ := (takes_i8.map fun k => JsValue.number k).inv h
    exact begins_signed (w := .w8) hlen rfl
  · obtain ⟨xs, hlen, rfl, rfl⟩ := (takes_i16.map fun k => JsValue.number k).inv h
    exact begins_signed (w := .w16) hlen rfl
  · obtain ⟨xs, hlen, rfl, rfl⟩ := (takes_i32.map fun k => JsValue.number k).inv h
    exact begins_signed (w := .w32) hlen rfl
  · obtain ⟨k, mid, hk, rfl, hs⟩ := length_inv takes_u8 h
    exact begins_str .w8 hk hs
  · obtain ⟨k, mid, hk, rfl, hs⟩ := length_inv takes_u16 h
    exact begins_str .w16 hk hs
  · obtain ⟨k, mid, hk, rfl, hs⟩ := length_inv takes_u32 h
    exact begins_str .w32 hk hs
  · obtain ⟨k, mid, hk, rfl, hs⟩ := length_inv takes_u16 h
    exact begins_array .w16 ih hk hs
  · obtain ⟨k, mid, hk, rfl, hs⟩ := length_inv takes_u32 h
    exact begins_array .w32 ih hk hs
  · obtain ⟨k, mid, hk, rfl, hs⟩ := length_inv takes_u16 h
    exact begins_map .w16 ih hk hs
  · obtain ⟨k, mid, hk, rfl, hs⟩ := length_inv takes_u32 h
    exact begins_map .w32 ih hk hs
  · cases h

/-- The ranges of the marker byte. -/
theorem marker_cases {m : ℕ} (h : m < 256) : m < 128 ∨ (∃ k, k < 16 ∧ m = 0x80 + k) ∨
    (∃ k, k < 16 ∧ m = 0x90 + k) ∨ (∃ k, k < 32 ∧ m = 0xa0 + k) ∨ (0xc0 ≤ m ∧ m < 0xe0) ∨
    ∃ k, k < 32 ∧ m = 0xe0 + k := by
  rcases Nat.lt_or_ge m 0x80 with h1 | h1
  · exact .inl h1
  rcases Nat.lt_or_ge m 0x90 with h2 | h2
  · exact .inr (.inl ⟨m - 0x80, by omega, by omega⟩)
  rcases Nat.lt_or_ge m 0xa0 with h3 | h3
  · exact .inr (.inr (.inl ⟨m - 0x90, by omega, by omega⟩))
  rcases Nat.lt_or_ge m 0xc0 with h4 | h4
  · exact .inr (.inr (.inr (.inl ⟨m - 0xa0, by omega, by omega⟩)))
  rcases Nat.lt_or_ge m 0xe0 with h5 | h5
  · exact .inr (.inr (.inr (.inr (.inl ⟨h4, h5⟩))))
  · exact .inr (.inr (.inr (.inr (.inr ⟨m - 0xe0, by omega, by omega⟩))))

theorem decodeValue_inv : ∀ {n : ℕ} {bs rest : List UInt8} {v : JsValue},
    decodeValue js n bs = .ok (v, rest) → Begins js n bs v rest
  | 0, _, _, _, h => by cases h
  | _ + 1, [], _, _, h => by cases h
  | n + 1, b :: bs, rest, v, h => by
    obtain ⟨m, hlt, rfl⟩ : ∃ m < 256, b = UInt8.ofNat m :=
      ⟨b.toNat, b.toNat_lt, (UInt8.ofNat_toNat).symm⟩
    rw [decodeValue_cons, toNat_marker hlt] at h
    rcases marker_cases hlt with hm | ⟨k, hk, rfl⟩ | ⟨k, hk, rfl⟩ | ⟨k, hk, rfl⟩ | ⟨hm, hm'⟩ | ⟨k, hk, rfl⟩
    · rw [decodeMarker_positive hm] at h
      cases h
      exact .leaf (t := .int .positive m) ⟨by omega, by omega⟩ rfl rfl rfl
    · rw [decodeMarker_map hk] at h
      exact begins_map .fix decodeValue_inv hk h
    · rw [decodeMarker_array hk] at h
      exact begins_array .fix decodeValue_inv hk h
    · rw [decodeMarker_str hk] at h
      exact begins_str .fix hk h
    · rw [decodeMarker_switch hm hm'] at h
      exact begins_switch decodeValue_inv h
    · rw [decodeMarker_negative hk] at h
      cases h
      refine .leaf (t := .int .negative ((k : ℤ) - 32)) ⟨by omega, by omega⟩ rfl ?_ rfl
      rw [Msg.encode, IntForm.encode, show ((k : ℤ) - 32 + 256).toNat = 0xe0 + k by omega]
      rfl

/-- The decoder accepts exactly the encodings of the messages that `build` reads. -/
theorem decodes_iff (js : Browser) (bytes : List UInt8) (v : JsValue) :
    decodeMsgpack js bytes = .ok v ↔ ∃ t : Msg, t.WellFormed ∧ t.depth ≤ js.stack ∧
      bytes = t.encode ∧ build js t = .ok v := by
  constructor
  · intro h
    unfold decodeMsgpack Decoder.whole at h
    split at h
    · rename_i y hy
      cases h
      obtain ⟨t, hw, hd, he, hb⟩ := decodeValue_inv hy
      exact ⟨t, hw, hd, by rwa [List.append_nil] at he, hb⟩
    · cases h
    · cases h
  · rintro ⟨t, hw, hd, rfl, hb⟩
    have hdec : decodeValue js js.stack (t.encode ++ []) = _ := decodeValue_encode [] hw hd
    rw [List.append_nil, hb] at hdec
    rw [decodeMsgpack, Decoder.whole, hdec]
    rfl

/-! ### Messages that arrive in parts -/

theorem streams_readString (k : ℕ) : Streams .incomplete (readString js k) :=
  .of_takes ((Takes.take k).map fun bytes => JsValue.string (js.textDecode bytes))

theorem streams_decodeItems {d : Decode JsValue} (hd : Streams .incomplete d) :
    ∀ k : ℕ, Streams .incomplete (decodeItems d k)
  | 0 => .pure _
  | k + 1 => hd.bind fun _ => (streams_decodeItems hd k).bind fun _ => .pure _

theorem streams_decodeArray {d : Decode JsValue} (hd : Streams .incomplete d) (k : ℕ) :
    Streams .incomplete (decodeArray d k) := (streams_decodeItems hd k).bind fun _ => .pure _

theorem streams_decodeEntries {d : Decode JsValue} (hd : Streams .incomplete d) :
    ∀ (k : ℕ) (obj : JsObject), Streams .incomplete (decodeEntries js d k obj)
  | 0, _ => .pure _
  | k + 1, obj => by
    refine hd.bind fun key => hd.bind fun value => ?_
    cases js.toPropertyKey key with
    | ok name => exact streams_decodeEntries hd k _
    | error e => exact .fail _

theorem streams_decodeMap {d : Decode JsValue} (hd : Streams .incomplete d) (k : ℕ) :
    Streams .incomplete (decodeMap js d k) := streams_decodeEntries hd k _

theorem streams_decodeSwitch {d : Decode JsValue} (hd : Streams .incomplete d) (m : ℕ) :
    Streams .incomplete (decodeSwitch js d m) := by
  unfold decodeSwitch
  split
  · exact .pure _
  · exact .pure _
  · exact .pure _
  · exact (Streams.of_takes takes_u8).bind fun _ => .pure _
  · exact (Streams.of_takes takes_u16).bind fun _ => .pure _
  · exact (Streams.of_takes takes_u32).bind fun _ => .pure _
  · exact (Streams.of_takes takes_u64).bind fun _ => .pure _
  · exact (Streams.of_takes takes_i8).bind fun _ => .pure _
  · exact (Streams.of_takes takes_i16).bind fun _ => .pure _
  · exact (Streams.of_takes takes_i32).bind fun _ => .pure _
  · exact (Streams.of_takes takes_u8).bind streams_readString
  · exact (Streams.of_takes takes_u16).bind streams_readString
  · exact (Streams.of_takes takes_u32).bind streams_readString
  · exact (Streams.of_takes takes_u16).bind (streams_decodeArray hd)
  · exact (Streams.of_takes takes_u32).bind (streams_decodeArray hd)
  · exact (Streams.of_takes takes_u16).bind (streams_decodeMap hd)
  · exact (Streams.of_takes takes_u32).bind (streams_decodeMap hd)
  · exact .fail _

theorem streams_decodeMarker {d : Decode JsValue} (hd : Streams .incomplete d) (m : ℕ) :
    Streams .incomplete (decodeMarker js d m) := by
  unfold decodeMarker
  split_ifs
  · exact .pure _
  · exact .pure _
  · exact streams_readString _
  · exact streams_decodeArray hd _
  · exact streams_decodeMap hd _
  · exact streams_decodeSwitch hd m

theorem streams_decodeValue : ∀ n : ℕ, Streams .incomplete (decodeValue js n)
  | 0 => .fail _
  | n + 1 => (Streams.of_takes takes_u8).bind (streams_decodeMarker (streams_decodeValue n))

/-- A proper beginning of an accepted message is incomplete, an accepted message with more behind it is
    refused for that, and every other refusal stands whatever more arrives. -/
theorem decodeMsgpack_framed (js : Browser) (bytes : List UInt8) (b : UInt8) (more : List UInt8) :
    (∀ v, decodeMsgpack js (bytes ++ b :: more) = .ok v →
      decodeMsgpack js bytes = .error .incomplete) ∧
    (∀ v, decodeMsgpack js bytes = .ok v →
      decodeMsgpack js (bytes ++ b :: more) = .error .trailing) ∧
    ∀ e, decodeMsgpack js bytes = .error e → e ≠ .incomplete →
      decodeMsgpack js (bytes ++ b :: more) = .error e := by
  have hd : Streams .incomplete (decodeValue js js.stack) := streams_decodeValue js.stack
  have hne : b :: more ≠ [] := List.cons_ne_nil b more
  exact ⟨fun v h => hd.whole_cut hne h, fun v h => hd.whole_trailing hne h,
    fun e h he => hd.whole_final _ h he⟩

end WsServer
