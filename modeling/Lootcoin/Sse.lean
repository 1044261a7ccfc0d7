import Mathlib.Data.List.DropRight
import Lootcoin.Library.Fallible
import Lootcoin.Library.Lines
import Lootcoin.Library.Utf8
import Lootcoin.Types

/-! The event stream of a peer.  The node decodes every chunk on its own, adds it to a buffer that
must not grow too long, and passes on the data of the lines that are complete.  The events do not
depend on how the stream is cut exactly when no cut lies inside a character of them, and no chunk is
too long together with the line that it goes on with. -/

namespace Lootcoin

namespace Sse

def sseLineBufLimit : ℕ := 256 * 1024

/-- The length of a text in bytes. -/
def utf8Len (text : List Char) : ℕ := (text.map Char.utf8Size).sum

def overflowMessage (peerUrl : String) (len : ℕ) : String :=
  s!"SSE line buffer overflow from {peerUrl} ({len} bytes without newline)"

def dataPrefix : List Char := ['d', 'a', 't', 'a', ':', ' ']

/-- The text after `data: ` of a line that begins so, without carriage returns at its end. -/
def eventData (line : List Char) : Option (List Char) :=
  let line := line.rdropWhile fun c => c = '\r'
  if dataPrefix <+: line then some (line.drop dataPrefix.length) else none

/-- The texts that are passed on while the chunks come in, and how the subscription ends. -/
def subscribeToPeer (peerUrl : String) :
    List Char → List Bytes → List (List Char) × Except String Unit
  | _, [] => ([], .ok ())
  | lineBuf, bytes :: byteStream =>
    let lineBuf := lineBuf ++ Utf8.decodeLossy bytes
    if sseLineBufLimit < utf8Len lineBuf then
      ([], .error (overflowMessage peerUrl (utf8Len lineBuf)))
    else
      let (lines, lineBuf) := Lines.split '\n' [] lineBuf
      let (events, result) := subscribeToPeer peerUrl lineBuf byteStream
      (lines.filterMap eventData ++ events, result)

/-! ### The events of a stream -/

/-- The newline. -/
def newline : Byte := 10

/-- The data of the complete lines of a stream. -/
def streamEvents (stream : Bytes) : List (List Char) :=
  (Lines.split newline [] stream).1.filterMap fun line => eventData (Utf8.decodeLossy line)

/-- The bytes of a stream, with `none` where a chunk ends. -/
def cutStream (byteStream : List Bytes) : List (Option Byte) :=
  byteStream.flatMap fun bytes => bytes.map some ++ [none]

def dataBytes : Bytes := [0x64, 0x61, 0x74, 0x61, 0x3A, 0x20]

/-- In the complete lines with data, no chunk ends inside a character, nor inside what is read as
one. -/
def KeepsCharacters (byteStream : List Bytes) : Prop :=
  ∀ line ∈ (Lines.split (some newline) [] (cutStream byteStream)).1,
    dataBytes <+: line.reduceOption → Utf8.decoder.Seamless none line

/-- No chunk is too long together with the line that has come in before it, which goes on. -/
def FitsBuffer (lineBuf : List Char) (byteStream : List Bytes) : Prop :=
  ∀ before bytes after, byteStream = before ++ bytes :: after →
    utf8Len ((Lines.split '\n' lineBuf (before.flatMap Utf8.decodeLossy)).2 ++
      Utf8.decodeLossy bytes) ≤ sseLineBufLimit

variable {peerUrl : String} {lineBuf : List Char} {bytes : Bytes} {byteStream : List Bytes}

/-! ### The buffer -/

theorem fitsBuffer_cons (hopen : '\n' ∉ lineBuf) : FitsBuffer lineBuf (bytes :: byteStream) ↔
    utf8Len (lineBuf ++ Utf8.decodeLossy bytes) ≤ sseLineBufLimit ∧
    FitsBuffer (Lines.split '\n' [] (lineBuf ++ Utf8.decodeLossy bytes)).2 byteStream := by
  rw [Lines.split_append_of_notMem hopen]
  have hlater : ∀ before : List Bytes,
      (Lines.split '\n' lineBuf ((bytes :: before).flatMap Utf8.decodeLossy)).2 =
        (Lines.split '\n' (Lines.split '\n' lineBuf (Utf8.decodeLossy bytes)).2
          (before.flatMap Utf8.decodeLossy)).2 := by
    intro before
    rw [List.flatMap_cons, Lines.split_append]
  constructor
  · intro h
    refine ⟨h [] bytes byteStream rfl, fun before bytes' after heq => ?_⟩
    have := h (bytes :: before) bytes' after (by rw [heq, List.cons_append])
    rwa [hlater] at this
  · rintro ⟨hfirst, hrest⟩ before bytes' after heq
    cases before with
    | nil =>
      cases heq
      exact hfirst
    | cons first before =>
      cases heq
      rw [hlater]
      exact hrest before bytes' after rfl

/-- A subscription ends with the stream exactly when the buffer holds every chunk, and then it has
passed on the data of the lines of the decoded chunks. -/
theorem subscribeToPeer_eq (hopen : '\n' ∉ lineBuf) :
    ((subscribeToPeer peerUrl lineBuf byteStream).2 = .ok () ↔ FitsBuffer lineBuf byteStream) ∧
    (FitsBuffer lineBuf byteStream → (subscribeToPeer peerUrl lineBuf byteStream).1 =
      (Lines.split '\n' lineBuf (byteStream.flatMap Utf8.decodeLossy)).1.filterMap eventData) := by
  induction byteStream generalizing lineBuf with
  | nil =>
    refine ⟨iff_of_true rfl fun before bytes after heq => ?_, fun _ => rfl⟩
    simp at heq
  | cons bytes byteStream ih =>
    have hrest := ih (Lines.notMem_split (x := '\n') (lineBuf ++ Utf8.decodeLossy bytes))
    rw [fitsBuffer_cons hopen, subscribeToPeer]
    by_cases hlen : sseLineBufLimit < utf8Len (lineBuf ++ Utf8.decodeLossy bytes)
    · rw [if_pos hlen]
      exact ⟨iff_of_false nofun fun h => absurd h.1 (by omega), fun h => absurd h.1 (by omega)⟩
    · rw [if_neg hlen]
      refine ⟨hrest.1.trans (and_iff_right (by omega)).symm, fun h => ?_⟩
      rw [Lines.split_append_of_notMem hopen] at hrest h ⊢
      rw [List.flatMap_cons, Lines.split_append, List.filterMap_append]
      exact congrArg _ (hrest.2 h.2)

/-! ### The lines -/

theorem reduceOption_map_some_append (bytes : Bytes) (l : List (Option Byte)) :
    (bytes.map some ++ l).reduceOption = bytes ++ l.reduceOption := by
  rw [List.reduceOption_append]
  simp [List.reduceOption]

theorem reduceOption_cutStream (byteStream : List Bytes) :
    (cutStream byteStream).reduceOption = byteStream.flatten := by
  induction byteStream with
  | nil => rfl
  | cons bytes byteStream ih =>
    rw [cutStream, List.flatMap_cons, ← cutStream, List.append_assoc, reduceOption_map_some_append,
      List.singleton_append, List.reduceOption_cons_of_none, ih, List.flatten_cons]

/-- The decoded chunks are what the decoder writes of the cut stream. -/
theorem cut_run_cutStream (byteStream : List Bytes) :
    Utf8.decoder.cut.run none (cutStream byteStream) = byteStream.flatMap Utf8.decodeLossy := by
  induction byteStream with
  | nil => rfl
  | cons bytes byteStream ih =>
    rw [cutStream, List.flatMap_cons, ← cutStream, List.append_assoc, List.singleton_append,
      Transducer.cut_run_append, Transducer.cut_run_map_some, List.flatMap_cons, ← ih]
    rfl

theorem isAscii_newline : Utf8.IsAscii newline := by decide

/-- The lines of the decoded text are those of the stream, each decoded as it is cut. -/
theorem split_cut_run (l : List (Option Byte)) :
    (Lines.split '
' [] (Utf8.decoder.cut.run none l)).1 =
      (Lines.split (some newline) [] l).1.map (Utf8.decoder.cut.run none) := by
  have hreset : ∀ s, Utf8.decoder.cut.step s (some newline) =
      (Utf8.decoder.cut.flush s ++ ['
'], Utf8.decoder.cut.start) := by
    intro s
    have hnot : ¬ Utf8.Continues s newline := fun h =>
      absurd (Utf8.le_of_continues h) (by decide)
    exact Utf8.step_of_not_continues hnot
  rw [Lines.split_map (x := some newline) (y := '
') (Utf8.decoder.cut.run none)]
  · intro l l'
    rw [Utf8.decoder.cut.run_append_of_reset hreset]
    rfl
  · intro l hl hmem
    have hcount := Utf8.count_cut_run isAscii_newline none l
    have hzero : l.reduceOption.count newline = 0 :=
      List.count_eq_zero_of_not_mem fun h => hl (List.reduceOption_mem_iff.mp h)
    rw [hzero] at hcount
    exact List.count_eq_zero.mp hcount hmem

theorem split_reduceOption (l : List (Option Byte)) :
    (Lines.split newline [] l.reduceOption).1 =
      (Lines.split (some newline) [] l).1.map List.reduceOption := by
  rw [Lines.split_map (x := some newline) (y := newline) List.reduceOption]
  · intro l l'
    rw [List.reduceOption_append, List.reduceOption_cons_of_some]
  · exact fun l hl hmem => hl (List.reduceOption_mem_iff.mp hmem)

/-! ### The data of a line -/

theorem map_ascii_dataBytes : dataBytes.map Utf8.ascii = dataPrefix := by decide

theorem isAscii_dataBytes : ∀ a ∈ dataBytes, Utf8.IsAscii a := by decide +kernel

/-- Carriage returns at the end do not matter for what a line begins with. -/
theorem dataPrefix_isPrefix_rdropWhile (line : List Char) :
    dataPrefix <+: line.rdropWhile (fun c => c = '\r') ↔ dataPrefix <+: line := by
  constructor
  · exact fun h => h.trans (List.rdropWhile_prefix _ _)
  · intro h
    rcases List.prefix_or_prefix_of_prefix h (List.rdropWhile_prefix _ _) with h' | ⟨t, ht⟩
    · exact h'
    · -- otherwise the prefix would reach into the carriage returns
      have hline := List.rdropWhile_append_rtakeWhile (p := fun c => decide (c = '\r')) (l := line)
      rw [← hline, ← ht, List.prefix_append_right_inj] at h
      have hnil : t = [] := by
        rw [List.eq_nil_iff_forall_not_mem]
        intro c hc
        have hcr : c = '\r' := by simpa using List.mem_rtakeWhile_imp (h.subset hc)
        have hmem : c ∈ dataPrefix := ht ▸ List.mem_append_right _ hc
        rw [hcr] at hmem
        exact absurd hmem (by decide)
      rw [← ht, hnil, List.append_nil]

theorem eventData_of_isPrefix {line : List Char} (h : dataPrefix <+: line) :
    eventData line = some ((line.rdropWhile fun c => c = '\r').drop dataPrefix.length) :=
  if_pos ((dataPrefix_isPrefix_rdropWhile line).mpr h)

theorem eventData_of_not_isPrefix {line : List Char} (h : ¬ dataPrefix <+: line) :
    eventData line = none :=
  if_neg (mt (dataPrefix_isPrefix_rdropWhile line).mp h)

/-- Lines with as many carriage returns that differ only in those at the end do not differ. -/
theorem eq_of_rdropWhile_eq {line line' : List Char} {c : Char}
    (hcount : line.count c = line'.count c)
    (h : line.rdropWhile (fun c' => c' = c) = line'.rdropWhile (fun c' => c' = c)) :
    line = line' := by
  have htail : ∀ l : List Char, ∃ n, l = l.rdropWhile (fun c' => c' = c) ++ List.replicate n c := by
    intro l
    refine ⟨(l.rtakeWhile fun c' => c' = c).length, ?_⟩
    have hall : l.rtakeWhile (fun c' => c' = c) =
        List.replicate (l.rtakeWhile fun c' => c' = c).length c :=
      List.eq_replicate_length.mpr fun c' hc' => by simpa using List.mem_rtakeWhile_imp hc'
    rw [← hall, List.rdropWhile_append_rtakeWhile]
  obtain ⟨n, hn⟩ := htail line
  obtain ⟨n', hn'⟩ := htail line'
  rw [hn, hn', h, List.count_append, List.count_append, List.count_replicate_self,
    List.count_replicate_self, Nat.add_left_cancel_iff] at hcount
  rw [hn, hn', h, hcount]

/-- A line has data exactly when its bytes say so, however they are cut. -/
theorem dataPrefix_isPrefix_cut_run (line : List (Option Byte)) :
    dataPrefix <+: Utf8.decoder.cut.run none line ↔ dataBytes <+: line.reduceOption := by
  rw [← map_ascii_dataBytes]
  exact Utf8.map_ascii_isPrefix_cut_run isAscii_dataBytes line

theorem reduceOption_map_some (bytes : Bytes) : (bytes.map some).reduceOption = bytes := by
  simpa using reduceOption_map_some_append bytes []

theorem dataPrefix_isPrefix_decodeLossy (bytes : Bytes) :
    dataPrefix <+: Utf8.decodeLossy bytes ↔ dataBytes <+: bytes := by
  have h := dataPrefix_isPrefix_cut_run (bytes.map some)
  rwa [Transducer.cut_run_map_some, reduceOption_map_some] at h

theorem isSome_eventData (line : List (Option Byte)) :
    (eventData (Utf8.decoder.cut.run none line)).isSome =
      (eventData (Utf8.decodeLossy line.reduceOption)).isSome := by
  have hcut := dataPrefix_isPrefix_cut_run line
  have hwhole := dataPrefix_isPrefix_decodeLossy line.reduceOption
  by_cases hdata : dataBytes <+: line.reduceOption
  · rw [eventData_of_isPrefix (hcut.mpr hdata), eventData_of_isPrefix (hwhole.mpr hdata)]
    rfl
  · rw [eventData_of_not_isPrefix (mt hcut.mp hdata),
      eventData_of_not_isPrefix (mt hwhole.mp hdata)]

/-- A decoded line has a carriage return for each that was sent, however it is cut. -/
theorem count_carriageReturn (line : List (Option Byte)) :
    (Utf8.decoder.cut.run none line).count '\r' =
      (Utf8.decodeLossy line.reduceOption).count '\r' := by
  have hcr : Utf8.IsAscii 13 := by decide
  have hwhole := Utf8.count_cut_run hcr none (line.reduceOption.map some)
  rw [Transducer.cut_run_map_some, reduceOption_map_some, ← Utf8.count_cut_run hcr none line]
    at hwhole
  exact hwhole.symm

/-- The data of a line is what it would be without the cuts exactly when none of them lies inside a
character, if the line has data. -/
theorem eventData_eq_iff (line : List (Option Byte)) :
    eventData (Utf8.decoder.cut.run none line) = eventData (Utf8.decodeLossy line.reduceOption) ↔
      (dataBytes <+: line.reduceOption → Utf8.decoder.Seamless none line) := by
  by_cases hdata : dataBytes <+: line.reduceOption
  · have hcut := (dataPrefix_isPrefix_cut_run line).mpr hdata
    have hwhole := (dataPrefix_isPrefix_decodeLossy _).mpr hdata
    rw [eventData_of_isPrefix hcut, eventData_of_isPrefix hwhole, imp_iff_right hdata,
      ← Utf8.decoder.cut_run_eq_iff, Option.some.injEq]
    constructor
    · intro hdrop
      refine eq_of_rdropWhile_eq (count_carriageReturn line) ?_
      obtain ⟨t, ht⟩ := (dataPrefix_isPrefix_rdropWhile _).mpr hcut
      obtain ⟨t', ht'⟩ := (dataPrefix_isPrefix_rdropWhile _).mpr hwhole
      rw [← ht, ← ht', List.drop_left, List.drop_left] at hdrop
      rw [← ht, hdrop]
      exact ht'
    · intro heq
      rw [heq]
      rfl
  · have hsome := isSome_eventData line
    have hnone : eventData (Utf8.decoder.cut.run none line) = none :=
      eventData_of_not_isPrefix (mt (dataPrefix_isPrefix_cut_run line).mp hdata)
    rw [hnone] at hsome ⊢
    refine iff_of_true ?_ fun h => absurd h hdata
    exact (Option.not_isSome_iff_eq_none.mp (by rw [← hsome]; simp)).symm

/-- Two readings of lines that find data in the same lines agree exactly when they do on each. -/
theorem filterMap_eq_iff {α β : Type*} {f g : α → Option β} {l : List α}
    (h : ∀ a ∈ l, (f a).isSome = (g a).isSome) :
    l.filterMap f = l.filterMap g ↔ ∀ a ∈ l, f a = g a := by
  induction l with
  | nil => simp
  | cons a l ih =>
    have ha := h a List.mem_cons_self
    have hrest := ih fun a' ha' => h a' (List.mem_cons_of_mem _ ha')
    rw [List.forall_mem_cons, ← hrest, List.filterMap_cons, List.filterMap_cons]
    cases hf : f a with
    | none =>
      cases hg : g a with
      | none => simp
      | some c => simp [hf, hg] at ha
    | some b =>
      cases hg : g a with
      | none => simp [hf, hg] at ha
      | some c => simp

/-- However a stream is cut, its events are passed on and the subscription ends with the stream
exactly when no cut lies inside a character of a line with data, and the buffer holds every chunk. -/
theorem subscribeToPeer_iff (peerUrl : String) (byteStream : List Bytes) :
    subscribeToPeer peerUrl [] byteStream = (streamEvents byteStream.flatten, .ok ()) ↔
      KeepsCharacters byteStream ∧ FitsBuffer [] byteStream := by
  have hopen : '\n' ∉ ([] : List Char) := by simp
  obtain ⟨hends, hpasses⟩ := @subscribeToPeer_eq peerUrl [] byteStream hopen
  rw [← cut_run_cutStream, split_cut_run, List.filterMap_map] at hpasses
  rw [streamEvents, ← reduceOption_cutStream, split_reduceOption, List.filterMap_map, Prod.ext_iff,
    hends, and_comm, and_comm (a := KeepsCharacters _)]
  refine and_congr_right fun hfits => ?_
  rw [hpasses hfits]
  refine (filterMap_eq_iff fun line _ => isSome_eventData line).trans ?_
  exact forall₂_congr fun line _ => eventData_eq_iff line

end Sse

namespace Sample

open Sse

/-- An event whose data is one character of two bytes, and the same event cut inside it. -/
def wholeEvent : List Bytes := [[0x64, 0x61, 0x74, 0x61, 0x3A, 0x20, 0xC3, 0xA9, 0x0A]]

def cutEvent : List Bytes := [[0x64, 0x61, 0x74, 0x61, 0x3A, 0x20, 0xC3], [0xA9, 0x0A]]

/-- The two streams are the same bytes, all lines of which are short, but in place of the character
the cut event has two replacement characters. -/
theorem cutEvent_altered : wholeEvent.flatten = cutEvent.flatten ∧
    (∀ line ∈ (Lines.split newline [] cutEvent.flatten).1, line.length ≤ sseLineBufLimit) ∧
    streamEvents cutEvent.flatten = [['é']] ∧
    subscribeToPeer "peer" [] wholeEvent = ([['é']], .ok ()) ∧
    subscribeToPeer "peer" [] cutEvent = ([[Utf8.replacement, Utf8.replacement]], .ok ()) ∧
    subscribeToPeer "peer" [] cutEvent ≠ (streamEvents cutEvent.flatten, .ok ()) := by
  have hwhole : (subscribeToPeer "peer" [] wholeEvent).1 = [['é']] ∧
      (subscribeToPeer "peer" [] wholeEvent).2.toOption = some () := by
    decide +kernel
  have hcut : (subscribeToPeer "peer" [] cutEvent).1 =
      [[Utf8.replacement, Utf8.replacement]] ∧
      (subscribeToPeer "peer" [] cutEvent).2.toOption = some () := by
    decide +kernel
  have hevents : streamEvents cutEvent.flatten = [['é']] := by decide +kernel
  refine ⟨rfl, by decide +kernel, hevents, Prod.ext hwhole.1 ?_, Prod.ext hcut.1 ?_, fun h => ?_⟩
  · exact Fallible.toOption_eq_some.mp hwhole.2
  · exact Fallible.toOption_eq_some.mp hcut.2
  · have hfirst := congrArg Prod.fst h
    rw [hcut.1, hevents] at hfirst
    exact absurd hfirst (by decide)

end Sample

end Lootcoin
