import Mathlib.Tactic.SplitIfs
import PlusLisp.SourceFile

/-!
UTF-8 that is well-formed: the bytes of a text are read as that text.

The first byte of a character says how many follow and what the second may be
(`Partial.Awaits`), and every further byte adds its bits (`Decoder.feed_last`, `Decoder.feed_more`).
No byte makes more than one character, so that a text is no longer than the file it is read from.

Main statements: `decode_toUTF8`, `SourceFile.length_le_of_text`.
-/

namespace PlusLisp.Text.Utf8

/-- A character awaits so many bytes, of which the next may have a given value. The bits read so far
have a given value as well. -/
structure Partial.Awaits (p : Partial) (missing next value : Nat) : Prop where
  missing : p.missing = missing
  low : p.low ≤ next
  high : next ≤ p.high
  value : p.value = value

section

variable {p : Partial} {n next value position : Nat} {done : List Char}

/-! ### The first byte -/

/-- The first of two bytes. -/
theorem ofLead?_of_two (hlow : 0x80 ≤ n) (hhigh : n ≤ 0x7ff) :
    ∃ p, Partial.ofLead? (.ofNat (n / 64 % 32 + 192)) = some p ∧
      p.Awaits 1 (n % 64 + 128) (n / 64) := by
  rw [Partial.ofLead?, UInt8.toNat_ofNat_of_lt' (show _ < 256 by omega), if_pos (by omega)]
  refine ⟨_, rfl, rfl, ?_, ?_, ?_⟩ <;> dsimp only <;> omega

/-- The first of three bytes. -/
theorem ofLead?_of_three (hlow : 0x800 ≤ n) (hhigh : n ≤ 0xffff)
    (hsurrogate : n < 0xd800 ∨ 0xdfff < n) :
    ∃ p, Partial.ofLead? (.ofNat (n / 4096 % 16 + 224)) = some p ∧
      p.Awaits 2 (n / 64 % 64 + 128) (n / 4096) := by
  rw [Partial.ofLead?, UInt8.toNat_ofNat_of_lt' (show _ < 256 by omega)]
  split_ifs
  any_goals omega
  all_goals refine ⟨_, rfl, rfl, ?_, ?_, ?_⟩ <;> dsimp only <;> omega

/-- The first of four bytes. -/
theorem ofLead?_of_four (hlow : 0x10000 ≤ n) (hhigh : n < 0x110000) :
    ∃ p, Partial.ofLead? (.ofNat (n / 262144 % 8 + 240)) = some p ∧
      p.Awaits 3 (n / 4096 % 64 + 128) (n / 262144) := by
  rw [Partial.ofLead?, UInt8.toNat_ofNat_of_lt' (show _ < 256 by omega)]
  split_ifs
  any_goals omega
  all_goals refine ⟨_, rfl, rfl, ?_, ?_, ?_⟩ <;> dsimp only <;> omega

/-! ### One byte after the other -/

theorem Decoder.feed_ascii (h : n < 0x80) :
    Decoder.feed ⟨position, done, none⟩ (.ofNat n) =
      .ok ⟨position + 1, Char.ofNat n :: done, none⟩ := by
  simp only [feed, UInt8.toNat_ofNat_of_lt' (show n < 256 by omega), if_pos h]

theorem Decoder.feed_lead (h : Partial.ofLead? (.ofNat n) = some p) (hlow : 0x80 ≤ n)
    (hhigh : n < 0x100) :
    Decoder.feed ⟨position, done, none⟩ (.ofNat n) = .ok ⟨position + 1, done, some p⟩ := by
  have hascii : ¬(UInt8.ofNat n).toNat < 0x80 := by
    rw [UInt8.toNat_ofNat_of_lt' hhigh]
    omega
  simp only [feed, if_neg hascii, h]

/-- The last byte of a character completes it. -/
theorem Decoder.feed_last (h : p.Awaits 1 next value) (hnext : next < 0x100) :
    Decoder.feed ⟨position, done, some p⟩ (.ofNat next) =
      .ok ⟨position + 1, Char.ofNat (value * 0x40 + (next - 0x80)) :: done, none⟩ := by
  simp only [feed, UInt8.toNat_ofNat_of_lt' hnext, if_pos (And.intro h.low h.high), h.missing,
    h.value, if_true]

/-- Any other byte of a character adds its bits. -/
theorem Decoder.feed_more {missing : Nat} (h : p.Awaits (missing + 2) next value)
    (hnext : next < 0x100) :
    ∃ q, Decoder.feed ⟨position, done, some p⟩ (.ofNat next) = .ok ⟨position + 1, done, some q⟩ ∧
      ∀ later, 0x80 ≤ later → later ≤ 0xbf →
        q.Awaits (missing + 1) later (value * 0x40 + (next - 0x80)) := by
  refine ⟨⟨p.lead, p.seen + 1, missing + 1, 0x80, 0xbf, value * 0x40 + (next - 0x80)⟩, ?_, ?_⟩
  · simp only [feed, UInt8.toNat_ofNat_of_lt' hnext, if_pos (And.intro h.low h.high), h.missing,
      h.value]
    rfl
  · intro later hlow hhigh
    exact ⟨rfl, hlow, hhigh, rfl⟩

/-- Bytes are taken in one after the other. -/
theorem Decoder.foldlM_feed_cons {d d' : Decoder} {byte : UInt8} (h : d.feed byte = .ok d')
    (bytes : List UInt8) : (byte :: bytes).foldlM feed d = bytes.foldlM feed d' := by
  rw [List.foldlM_cons, h]
  rfl

/-- The bytes of a character are read as the character. -/
theorem Decoder.feed_utf8EncodeChar (c : Char) (position : Nat) (done : List Char) :
    ∃ position', (String.utf8EncodeChar c).foldlM feed ⟨position, done, none⟩ =
      .ok ⟨position', c :: done, none⟩ := by
  have hvalid : c.toNat < 0xd800 ∨ 0xdfff < c.toNat ∧ c.toNat < 0x110000 := c.valid
  obtain ⟨n, hn⟩ : ∃ n, c.val.toNat = n := ⟨_, rfl⟩
  have hc : Char.ofNat n = c := by rw [← hn]; exact Char.ofNat_toNat c
  have hn' : c.toNat = n := hn
  rw [hn'] at hvalid
  simp only [String.utf8EncodeChar, hn]
  -- A character has one, two, three or four bytes.
  split_ifs with hone htwo hthree
  · refine ⟨position + 1, ?_⟩
    rw [foldlM_feed_cons (feed_ascii (by omega)), hc]
    rfl
  · obtain ⟨p, hlead, hp⟩ := ofLead?_of_two (n := n) (by omega) htwo
    have hvalue : n / 64 * 0x40 + (n % 64 + 128 - 0x80) = n := by omega
    refine ⟨position + 2, ?_⟩
    rw [foldlM_feed_cons (feed_lead hlead (by omega) (by omega)),
      foldlM_feed_cons (feed_last hp (by omega)), hvalue, hc]
    rfl
  · obtain ⟨p, hlead, hp⟩ := ofLead?_of_three (n := n) (by omega) hthree (by omega)
    obtain ⟨q, hsecond, hq⟩ := feed_more hp (by omega)
    have hvalue : (n / 4096 * 0x40 + (n / 64 % 64 + 128 - 0x80)) * 0x40 + (n % 64 + 128 - 0x80) =
        n := by omega
    refine ⟨position + 3, ?_⟩
    rw [foldlM_feed_cons (feed_lead hlead (by omega) (by omega)), foldlM_feed_cons hsecond,
      foldlM_feed_cons (feed_last (hq _ (by omega) (by omega)) (by omega)), hvalue, hc]
    rfl
  · obtain ⟨p, hlead, hp⟩ := ofLead?_of_four (n := n) (by omega) (by omega)
    obtain ⟨q, hsecond, hq⟩ := feed_more hp (by omega)
    obtain ⟨r, hthird, hr⟩ := feed_more (hq (n / 64 % 64 + 128) (by omega) (by omega)) (by omega)
    have hvalue : ((n / 262144 * 0x40 + (n / 4096 % 64 + 128 - 0x80)) * 0x40 +
        (n / 64 % 64 + 128 - 0x80)) * 0x40 + (n % 64 + 128 - 0x80) = n := by omega
    refine ⟨position + 4, ?_⟩
    rw [foldlM_feed_cons (feed_lead hlead (by omega) (by omega)), foldlM_feed_cons hsecond,
      foldlM_feed_cons hthird,
      foldlM_feed_cons (feed_last (hr _ (by omega) (by omega)) (by omega)), hvalue, hc]
    rfl

theorem Decoder.feed_utf8EncodeChars (text : List Char) (position : Nat) (done : List Char) :
    ∃ position', (text.flatMap String.utf8EncodeChar).foldlM feed ⟨position, done, none⟩ =
      .ok ⟨position', text.reverse ++ done, none⟩ := by
  induction text generalizing position done with
  | nil => exact ⟨position, rfl⟩
  | cons c text ih =>
    obtain ⟨position', hc⟩ := feed_utf8EncodeChar c position done
    obtain ⟨position'', htext⟩ := ih position' (c :: done)
    refine ⟨position'', ?_⟩
    rw [List.flatMap_cons, List.foldlM_append, hc, List.reverse_cons, List.append_assoc]
    exact htext

end

theorem toList_data_toUTF8 (text : List Char) :
    (String.ofList text).toUTF8.data.toList = text.flatMap String.utf8EncodeChar := by
  rw [String.toUTF8_eq_toByteArray, String.toByteArray_ofList, List.utf8Encode,
    List.data_toByteArray]

/-- **The bytes of a text are read as the text.** -/
theorem decode_toUTF8 (text : String) : decode text.toUTF8.data.toList = .ok text := by
  obtain ⟨position, hfeed⟩ := Decoder.feed_utf8EncodeChars text.toList 0 []
  have hbytes := toList_data_toUTF8 text.toList
  rw [String.ofList_toList] at hbytes
  rw [decode, hbytes, hfeed, List.append_nil]
  have htext : String.ofList text.toList.reverse.reverse = text := by
    rw [List.reverse_reverse, String.ofList_toList]
  exact congrArg Except.ok htext

/-! ### Lengths -/

/-- A byte makes at most one character. -/
theorem Decoder.length_done_feed {decoder next : Decoder} {byte : UInt8}
    (h : decoder.feed byte = .ok next) : next.done.length ≤ decoder.done.length + 1 := by
  unfold feed at h
  dsimp only at h
  split at h <;> split at h
  · cases h
    exact Nat.le_refl _
  · split at h <;> cases h
    exact Nat.le_succ _
  · split at h <;> cases h
    · exact Nat.le_refl _
    · exact Nat.le_succ _
  · cases h

theorem Decoder.length_done_foldlM {bytes : List UInt8} {decoder last : Decoder}
    (h : bytes.foldlM feed decoder = .ok last) :
    last.done.length ≤ decoder.done.length + bytes.length := by
  induction bytes generalizing decoder with
  | nil =>
    cases h
    exact Nat.le_refl _
  | cons byte bytes ih =>
    rw [List.foldlM_cons] at h
    cases hfeed : decoder.feed byte with
    | error malformed =>
      rw [hfeed] at h
      cases h
    | ok next =>
      rw [hfeed] at h
      have hstep := length_done_feed hfeed
      have hrest := ih h
      rw [List.length_cons]
      omega

/-- Bytes stand for no more characters than there are of them. -/
theorem length_le_of_decode {bytes : List UInt8} {text : String} (h : decode bytes = .ok text) :
    text.length ≤ bytes.length := by
  rw [decode] at h
  cases hfold : bytes.foldlM Decoder.feed ⟨0, [], none⟩ with
  | error malformed =>
    rw [hfold] at h
    cases h
  | ok last =>
    obtain ⟨position, done, pending⟩ := last
    rw [hfold] at h
    cases pending with
    | some p => cases h
    | none =>
      cases h
      have hdone := Decoder.length_done_foldlM hfold
      rw [List.length_nil, Nat.zero_add] at hdone
      rwa [String.length_ofList, List.length_reverse]

end PlusLisp.Text.Utf8

namespace PlusLisp.Text

theorem length_unifyLineBreaks_le (text : List Char) :
    (unifyLineBreaks text).length ≤ text.length := by
  fun_induction unifyLineBreaks text with
  | case1 => exact Nat.le_refl 0
  | case2 rest ih => exact Nat.le_succ_of_le (Nat.succ_le_succ ih)
  | case3 c rest hother ih => exact Nat.succ_le_succ ih

end PlusLisp.Text

namespace PlusLisp.SourceFile

/-- A file that holds the UTF-8 of a text has that text for its program text, with a line feed for
every line break. -/
theorem text_toUTF8 (content : String) :
    text content.toUTF8.data.toList =
      .ok (String.ofList (Text.unifyLineBreaks content.toList)) := by
  rw [text, Text.Utf8.decode_toUTF8]

/-- **No text is longer than its file.** -/
theorem length_le_of_text {bytes : List UInt8} {program : String}
    (h : text bytes = .ok program) : program.length ≤ bytes.length := by
  rw [text] at h
  cases hdecode : Text.Utf8.decode bytes with
  | error malformed =>
    rw [hdecode] at h
    cases h
  | ok content =>
    rw [hdecode] at h
    cases h
    have hlines := Text.length_unifyLineBreaks_le content.toList
    rw [String.length_toList] at hlines
    rw [String.length_ofList]
    exact Nat.le_trans hlines (Text.Utf8.length_le_of_decode hdecode)

end PlusLisp.SourceFile
