import SystemProgramming.Networking.StoreConsistency

/-!
# The request headers that the server accepts

The acceptance of a request is spread over a reader that goes byte by byte, string functions on
its buffer, the removal of the last character and a look-ahead of one byte. All streams are
classified by the header string that the server makes of them. A stream that ends before its
newline is accepted without its last byte, names may be empty or too long for their field, and
what the stack held decides whether a byte after the header is noticed.

## Main definitions

* `Header`: the header string of a stream, and what is left of the stream
* `Follows`: the connection ends up as the grammar of requests says

## Main results

* `parseHeader_put`, `parseHeader_get`: the server finds the request that was sent
* `Header.parse`, `parseHeader_of_forall_not`: the outcome for each stream
* `grammar_iff`: the streams for which the grammar is respected
-/

namespace SystemProgramming.Networking

/-! ## The requests of the client -/

/-- A header line of a verb and a plain name, as `read_header` sees it. -/
theorem readHeader_line {verb : List UInt8} {name : Name} (rest : Name) {s : Source}
    (hname : Plain name) (hverb : ∀ b ∈ verb, b ≠ 0 ∧ b ≠ 10) (hlen : verb.length ≤ 7)
    (hs : s.bytes = verb ++ name ++ 10 :: rest) (scratch : Scratch) :
    ∃ sched, readHeaderFromSocket scratch.header s maxHeaderLen =
        ((verb ++ name).length, verb ++ name ++ [10], ⟨rest, sched⟩) ∧
      (verb ++ name).length ≠ maxHeaderLen ∧
      scratch.header.string (verb ++ name ++ [10]) = verb ++ name ++ [10] := by
  obtain ⟨-, hle, hchars, -⟩ := hname
  have h0 : ∀ b ∈ verb ++ name, b ≠ 0 := by
    intro b hb
    rcases List.mem_append.mp hb with hb | hb
    · exact (hverb b hb).1
    · exact (hchars b hb).2.2
  have h10 : ∀ b ∈ verb ++ name, b ≠ 10 := by
    intro b hb
    rcases List.mem_append.mp hb with hb | hb
    · exact (hverb b hb).2
    · exact (hchars b hb).2.1
  -- the line with its newline is shorter than the buffer
  have hcount : (verb ++ name).length + 1 < maxHeaderLen := by
    rw [List.length_append]
    unfold maxHeaderLen
    omega
  have hblank : scratch.header.Blank maxHeaderLen := Around.calloc_blank _ _
  obtain ⟨sched, hread⟩ := readHeaderFromSocket_line hblank hs h0 h10
    (Nat.lt_of_succ_lt hcount) hcount
  refine ⟨sched, hread, by omega, ?_⟩
  rw [hblank.string_eq (by rw [List.length_append]; exact hcount)]
  refine cString_of_ne ?_
  intro c hc
  rcases List.mem_append.mp hc with hc | hc
  · exact h0 c hc
  · obtain rfl : c = 10 := by simpa using hc
    decide

/-- The name in a header line. -/
theorem filenameOf_line {verb name : Name} {c : UInt8} :
    filenameOf (verb ++ name ++ [c]) verb.length = name := by
  rw [filenameOf, List.append_assoc, List.drop_left, List.dropLast_concat]

/-- **The request of a `PUT`** is found as such, with its body left to be read. -/
theorem parseHeader_put {name rest : Name} {s : Source} (hname : Plain name)
    (hs : s.bytes = putVerb ++ name ++ 10 :: rest) (scratch : Scratch) :
    ∃ sched, parseHeader scratch s = (.put name, ⟨rest, sched⟩) := by
  obtain ⟨sched, hread, hlen, hstr⟩ :=
    readHeader_line rest hname (by simp [putVerb]) (by decide) hs scratch
  have hget : ¬ getVerb <+: putVerb ++ name ++ [10] := by simp [getVerb, putVerb]
  have hput : putVerb <+: putVerb ++ name ++ [10] := by simp [List.append_assoc]
  refine ⟨sched, ?_⟩
  rw [parseHeader, hread]
  dsimp only
  rw [if_neg hlen, hstr, parseLine, if_neg hget, if_pos hput]
  exact congrArg (fun n => (Request.put n, _)) (@filenameOf_line putVerb name 10)

/-- **The request of a `GET`** is found as such when nothing follows it. -/
theorem parseHeader_get {name : Name} {s : Source} (hname : Plain name)
    (hs : s.bytes = getVerb ++ name ++ [10]) (scratch : Scratch) :
    (parseHeader scratch s).1 = .get name := by
  obtain ⟨sched, hread, hlen, hstr⟩ :=
    readHeader_line [] hname (by simp [getVerb]) (by decide) hs scratch
  have hget : getVerb <+: getVerb ++ name ++ [10] := by simp [List.append_assoc]
  have hmore : (readAfterNewline scratch.stack ⟨[], sched⟩).1 = false := by
    simp [readAfterNewline, readHeaderFromSocket_nil]
  rw [parseHeader, hread]
  dsimp only
  rw [if_neg hlen, hstr, parseLine, if_pos hget]
  dsimp only
  rw [if_neg (by simp [hmore])]
  exact congrArg Request.get (@filenameOf_line getVerb name 10)

/-! ## The header string of a stream -/

/-- The header string that the server makes of a stream, with what is left of the stream: a line,
a stream that ends before its newline or has a NUL before it, or a buffer full to the last byte
that is taken for a line because of what is on the heap behind it. -/
inductive Header (heap bytes : List UInt8) : List UInt8 → List UInt8 → Prop
  | line {line rest : List UInt8} : bytes = line ++ 10 :: rest → (∀ c ∈ line, c ≠ 0 ∧ c ≠ 10) →
      line.length + 1 < maxHeaderLen → Header heap bytes (line ++ [10]) rest
  | cut : 10 ∉ cString bytes → bytes.length < maxHeaderLen → Header heap bytes (cString bytes) []
  | full : 10 ∉ cString (bytes.take 1023) → maxHeaderLen ≤ bytes.length →
      (∀ c ∈ bytes.take maxHeaderLen, c ≠ 0) →
      (bytes.take maxHeaderLen ++ cString heap).getLast? = some 10 →
      Header heap bytes (bytes.take maxHeaderLen ++ cString heap) (bytes.drop maxHeaderLen)

section Header

variable {scratch : Scratch} {heap bytes text rest : List UInt8} {s : Source}

theorem Scratch.header_blank (scratch : Scratch) : scratch.header.Blank maxHeaderLen :=
  Around.calloc_blank _ _

theorem Scratch.header_string_full (scratch : Scratch) {header : List UInt8}
    (hlen : header.length = maxHeaderLen) (h0 : ∀ c ∈ header, c ≠ 0) :
    scratch.header.string header = header ++ cString scratch.heap := by
  rw [Around.string, Scratch.header, Around.calloc, hlen, cString_append_of_ne h0,
    List.drop_left' List.length_replicate]

theorem cString_take_of_mem {bytes : List UInt8} (h0 : 0 ∈ bytes.take maxHeaderLen)
    (more : List UInt8) : cString (bytes.take maxHeaderLen ++ more) = cString (bytes.take 1023) := by
  have htake : bytes.take maxHeaderLen = bytes.take 1023 ++ (bytes.drop 1023).take 1 :=
    List.take_add (l := bytes) (i := 1023) (j := 1)
  rw [htake] at h0 ⊢
  by_cases hmem : 0 ∈ bytes.take 1023
  · rw [List.append_assoc, cString_append_of_mem hmem]
  · -- the NUL is the last byte of the buffer
    have hne : ∀ c ∈ bytes.take 1023, c ≠ 0 := fun c hc h => hmem (h ▸ hc)
    have hlast : 0 ∈ (bytes.drop 1023).take 1 := (List.mem_append.mp h0).resolve_left hmem
    obtain ⟨c, rest, hdrop⟩ : ∃ c rest, bytes.drop 1023 = c :: rest :=
      List.exists_cons_of_ne_nil fun hnil => by simp [hnil] at hlast
    obtain rfl : 0 = c := by simpa [hdrop] using hlast
    rw [hdrop, List.append_assoc, cString_append_of_ne hne, cString_of_ne hne]
    exact List.append_nil _

/-- A full buffer with a NUL in it holds no line. -/
theorem Scratch.endsLine_of_mem (scratch : Scratch) {bytes : List UInt8}
    (hline : 10 ∉ cString (bytes.take 1023)) (h0 : 0 ∈ bytes.take maxHeaderLen) :
    endsLine scratch.header (bytes.take maxHeaderLen) = false := by
  rw [endsLine, Around.string, cString_take_of_mem h0]
  cases hlast : (cString (bytes.take 1023)).getLast? with
  | none => rfl
  | some c =>
    have hc : c ≠ 10 := fun hc => hline (hc ▸ List.mem_of_getLast? hlast)
    simpa using hc

/-- A newline before the first NUL ends a line. -/
theorem exists_header_line (h : 10 ∈ cString (bytes.take 1023)) (heap : List UInt8) :
    ∃ text rest, Header heap bytes text rest := by
  obtain ⟨line, more, heq, hfirst⟩ := List.eq_append_cons_of_mem h
  have hstart : line ++ [10] <+: cString (bytes.take 1023) := ⟨more, by simp [heq]⟩
  have htake := hstart.trans (List.takeWhile_prefix _)
  obtain ⟨rest, hrest⟩ := htake.trans (List.take_prefix 1023 bytes)
  have hbytes : bytes = line ++ 10 :: rest := by
    rw [← hrest, List.append_assoc]
    rfl
  refine ⟨line ++ [10], rest, .line hbytes (fun c hc => ⟨?_, ?_⟩) ?_⟩
  · simpa using List.mem_takeWhile_imp (hstart.subset (List.mem_append_left _ hc))
  · exact fun h10 => hfirst (h10 ▸ hc)
  · have hle := htake.length_le
    rw [List.length_append, List.length_take, List.length_singleton] at hle
    unfold maxHeaderLen
    omega

/-- A stream without a header string fills the header without a line. -/
theorem full_of_forall_not (h : ∀ text rest, ¬ Header heap bytes text rest) :
    10 ∉ cString (bytes.take 1023) ∧ maxHeaderLen ≤ bytes.length := by
  have hline : 10 ∉ cString (bytes.take 1023) := fun hmem => by
    obtain ⟨text, rest, hheader⟩ := exists_header_line hmem heap
    exact h text rest hheader
  refine ⟨hline, ?_⟩
  by_contra hshort
  have htake : bytes.take 1023 = bytes :=
    List.take_of_length_le (by unfold maxHeaderLen at hshort; omega)
  exact h _ _ (.cut (htake ▸ hline) (by omega))

/-- A stream with a header string is judged by it. -/
theorem Header.parse (h : Header scratch.heap s.bytes text rest) :
    ∃ sched, parseHeader scratch s = parseLine scratch.stack text ⟨rest, sched⟩ := by
  have hblank := scratch.header_blank
  cases h with
  | @line line _ hbytes hclean hlen =>
    obtain ⟨sched, hread⟩ := readHeaderFromSocket_line hblank hbytes (fun c hc => (hclean c hc).1)
      (fun c hc => (hclean c hc).2) (Nat.lt_of_succ_lt hlen) hlen
    have hstring : scratch.header.string (line ++ [10]) = line ++ [10] := by
      rw [hblank.string_eq (by rw [List.length_append]; exact hlen)]
      refine cString_of_ne fun c hc => ?_
      rcases List.mem_append.mp hc with hc | hc
      · exact (hclean c hc).1
      · obtain rfl : c = 10 := by simpa using hc
        decide
    refine ⟨sched, ?_⟩
    rw [parseHeader, hread]
    dsimp only
    rw [if_neg (by omega), hstring]
  | cut hline hlen =>
    obtain ⟨sched, hread⟩ := readHeaderFromSocket_cut hblank hline hlen.le hlen
    refine ⟨sched, ?_⟩
    rw [parseHeader, hread]
    dsimp only
    rw [if_neg hlen.ne, hblank.string_eq hlen]
  | full hline hlen h0 hlast =>
    have htake : (s.bytes.take maxHeaderLen).length = maxHeaderLen := List.length_take_of_le hlen
    have hstring := scratch.header_string_full htake h0
    have hends : endsLine scratch.header (s.bytes.take maxHeaderLen) = true := by
      rw [endsLine, hstring, hlast]
      rfl
    obtain ⟨sched, hread⟩ := readHeaderFromSocket_full hblank hline hlen
    refine ⟨sched, ?_⟩
    rw [parseHeader, show maxHeaderLen = 1023 + 1 from rfl, hread]
    dsimp only
    rw [show 1023 + 1 = maxHeaderLen from rfl, hends, if_pos rfl, if_neg (by decide), hstring]

/-- A stream without a header string is a bad request. -/
theorem parseHeader_of_forall_not (h : ∀ text rest, ¬ Header scratch.heap s.bytes text rest) :
    (parseHeader scratch s).1 = .bad := by
  have hblank := scratch.header_blank
  obtain ⟨hline, hlen⟩ := full_of_forall_not h
  obtain ⟨sched, hread⟩ := readHeaderFromSocket_full hblank hline hlen
  have hends : endsLine scratch.header (s.bytes.take maxHeaderLen) = false := by
    by_cases h0 : 0 ∈ s.bytes.take maxHeaderLen
    · exact scratch.endsLine_of_mem hline h0
    · have hne : ∀ c ∈ s.bytes.take maxHeaderLen, c ≠ 0 := fun c hc h => h0 (h ▸ hc)
      have hstring := scratch.header_string_full (List.length_take_of_le hlen) hne
      rw [endsLine, hstring]
      cases hlast : (s.bytes.take maxHeaderLen ++ cString scratch.heap).getLast? with
      | none => rfl
      | some c =>
        have hc : c ≠ 10 := fun hc => h _ _ (.full hline hlen hne (hc ▸ hlast))
        simpa using hc
  rw [parseHeader, show maxHeaderLen = 1023 + 1 from rfl, hread]
  dsimp only
  rw [show 1023 + 1 = maxHeaderLen from rfl, hends]
  rfl

/-- The verbs with a name have neither NUL nor newline. -/
theorem verb_clean {verb : List UInt8} (h : verb ∈ [getVerb, putVerb, deleteVerb]) :
    (∀ c ∈ verb, c ≠ 0 ∧ c ≠ 10) ∧ verb.length ≤ 7 := by
  simp only [List.mem_cons, List.not_mem_nil, or_false] at h
  rcases h with rfl | rfl | rfl
  · simp [getVerb]
  · simp [putVerb]
  · simp [deleteVerb]

/-- A verb is at the start of the header string if it is at the start of the stream. -/
theorem Header.prefix_iff (h : Header heap bytes text rest) {verb : List UInt8}
    (hmem : verb ∈ [getVerb, putVerb, deleteVerb]) : verb <+: text ↔ verb <+: bytes := by
  obtain ⟨hverb, hlen⟩ := verb_clean hmem
  cases h with
  | @line line _ hbytes hclean _ =>
    -- no newline in the verb, so that it is in the line
    have hline : ∀ rest, verb <+: line ++ 10 :: rest ↔ verb <+: line := by
      intro rest
      refine ⟨fun h => ?_, fun h => h.trans (List.prefix_append _ _)⟩
      refine List.prefix_of_prefix_length_le h (List.prefix_append _ _) ?_
      by_contra hlt
      have hnewline : line ++ [10] <+: verb :=
        List.prefix_of_prefix_length_le ⟨rest, by simp⟩ h (by
          rw [List.length_append, List.length_singleton]
          omega)
      exact (hverb 10 (hnewline.subset (by simp))).2 rfl
    rw [hline [], hbytes, hline]
  | cut _ _ =>
    refine ⟨fun h => h.trans (List.takeWhile_prefix _), fun h => ?_⟩
    have hstring := cString_mono h
    rwa [cString_of_ne fun c hc => (hverb c hc).1] at hstring
  | full _ hlen' _ _ =>
    have htake : verb.length ≤ (bytes.take maxHeaderLen).length := by
      rw [List.length_take_of_le hlen']
      unfold maxHeaderLen
      omega
    refine ⟨fun h => ?_, fun h => ?_⟩
    · exact (List.prefix_of_prefix_length_le h (List.prefix_append _ _) htake).trans
        (List.take_prefix _ _)
    · exact (List.prefix_of_prefix_length_le h (List.take_prefix _ _) htake).trans
        (List.prefix_append _ _)

/-- A header string that does not fill the header is at the start of the stream. -/
theorem Header.prefix_of_lt (h : Header heap bytes text rest) (hlen : text.length < maxHeaderLen) :
    text <+: bytes := by
  cases h with
  | line hbytes _ _ => exact ⟨rest, by rw [hbytes, List.append_assoc]; rfl⟩
  | cut _ _ => exact List.takeWhile_prefix _
  | full _ hfull _ _ =>
    rw [List.length_append, List.length_take_of_le hfull] at hlen
    omega

/-- Streams that fill the header without a line, and hold a NUL. -/
def Overlong (bytes : List UInt8) : Prop :=
  maxHeaderLen ≤ bytes.length ∧ 0 ∈ bytes.take maxHeaderLen ∧ 10 ∉ cString bytes

/-- The streams without a header string, whatever is on the heap. -/
theorem forall_not_header_iff :
    (∀ heap text rest, ¬ Header heap bytes text rest) ↔ Overlong bytes := by
  constructor
  · intro h
    obtain ⟨hline, hlen⟩ := full_of_forall_not (h [10])
    have h0 : 0 ∈ bytes.take maxHeaderLen := by
      by_contra h0
      -- a heap that makes the full buffer look like a line
      exact h [10] _ _ (.full hline hlen (fun c hc h => h0 (h ▸ hc)) (by simp [cString]))
    refine ⟨hlen, h0, ?_⟩
    rwa [← List.take_append_drop maxHeaderLen bytes, cString_take_of_mem h0]
  · rintro ⟨hlen, h0, hline⟩ heap text rest h
    cases h with
    | @line line _ hbytes hclean _ =>
      rw [hbytes, cString_append_of_ne fun c hc => (hclean c hc).1] at hline
      exact hline (List.mem_append_right _ (by simp [cString]))
    | cut _ hshort => omega
    | full _ _ hne _ => exact hne 0 h0 rfl

end Header

/-! ## The look-ahead -/

/-- Memory in which the look-ahead finds a newline, whatever it reads. -/
def Around.newline : Around := ⟨10, [0, 10]⟩

/-- A byte after the header may go unnoticed. -/
theorem readAfterNewline_newline (s : Source) : (readAfterNewline .newline s).1 = false := by
  have hends : ∀ c, endsLine .newline [c] = true := by
    intro c
    by_cases hc : c = 0
    · rw [hc]
      rfl
    · simp [endsLine, Around.string, Around.newline, cString, hc]
  have hcount : (readHeaderFromSocket .newline s 1).1 = 0 := by
    rw [readHeaderFromSocket, headerLoop, if_pos (by decide)]
    rcases s.read 1 with ⟨_ | _ | ⟨c, _⟩, s⟩
    · rfl
    · rfl
    · dsimp only
      rw [List.nil_append, hends, if_pos rfl]
      rfl
  simp [readAfterNewline, hcount]

theorem readAfterNewline_nil (stack : Around) (sched : List Sys) :
    (readAfterNewline stack ⟨[], sched⟩).1 = false := by
  simp [readAfterNewline, readHeaderFromSocket_nil]

/-! ## The grammar of requests -/

/-- A name that fits its field. -/
def IsFilename (name : Name) : Prop :=
  1 ≤ name.length ∧ name.length ≤ 255 ∧ ∀ c ∈ name, c ≠ 10 ∧ c ≠ 0

/-- The first line of a stream, without its newline. -/
def firstLine (bytes : List UInt8) : List UInt8 := bytes.takeWhile (· ≠ 10)

/-- A connection whose client sent `bytes` is left as the grammar of requests says. -/
structure Follows (bytes : List UInt8) (conn : Conn) : Prop where
  get : ∀ name, (conn.state = .parsed ∧ conn.cmd = .get ∧ conn.filename = name) ↔
    bytes = getVerb ++ name ++ [10] ∧ IsFilename name
  delete : ∀ name, (conn.state = .parsed ∧ conn.cmd = .delete ∧ conn.filename = name) ↔
    bytes = deleteVerb ++ name ++ [10] ∧ IsFilename name
  list : (conn.state = .parsed ∧ conn.cmd = .list) ↔ bytes = listLine
  bad : ¬ putVerb <+: firstLine bytes →
    (∀ name, IsFilename name → bytes ≠ getVerb ++ name ++ [10] ∧ bytes ≠ deleteVerb ++ name ++ [10]) →
    bytes ≠ listLine → conn.state = .badRequest

/-- The requests other than a `PUT`. -/
def Grammatical (bytes : List UInt8) : Prop :=
  bytes = listLine ∨
    ∃ name, IsFilename name ∧ (bytes = getVerb ++ name ++ [10] ∨ bytes = deleteVerb ++ name ++ [10])

/-- The streams with which the server keeps to the grammar. -/
def Judged (bytes : List UInt8) : Prop :=
  Grammatical bytes ∨ putVerb <+: bytes ∨
    ¬ (getVerb <+: bytes ∨ deleteVerb <+: bytes ∨ listLine <+: bytes) ∨ Overlong bytes

theorem putVerb_prefix_firstLine {bytes : List UInt8} (h : putVerb <+: bytes) :
    putVerb <+: firstLine bytes := by
  obtain ⟨rest, rfl⟩ := h
  exact ⟨firstLine rest, (List.takeWhile_append_of_pos (by simp [putVerb])).symm⟩

section Follows

variable {bytes : List UInt8} {conn : Conn}

/-- Requests of the grammar have no header but the whole stream. -/
theorem Grammatical.header (h : Grammatical bytes) (heap : List UInt8) :
    Header heap bytes bytes [] := by
  have hline : ∀ {line : List UInt8}, (∀ c ∈ line, c ≠ 0 ∧ c ≠ 10) → line.length + 1 < maxHeaderLen →
      Header heap (line ++ [10]) (line ++ [10]) [] :=
    fun hclean hlen => .line rfl hclean hlen
  have hname : ∀ {verb name : List UInt8}, (∀ c ∈ verb, c ≠ 0 ∧ c ≠ 10) ∧ verb.length ≤ 7 →
      IsFilename name → Header heap (verb ++ name ++ [10]) (verb ++ name ++ [10]) [] := by
    intro verb name ⟨hverb, hlen⟩ hname
    refine hline (fun c hc => ?_) ?_
    · rcases List.mem_append.mp hc with hc | hc
      · exact hverb c hc
      · exact (hname.2.2 c hc).symm
    · have hle := hname.2.1
      rw [List.length_append]
      unfold maxHeaderLen
      omega
  rcases h with rfl | ⟨name, hfile, rfl | rfl⟩
  · exact @hline [76, 73, 83, 84] (by simp) (by decide)
  · exact hname (verb_clean (by simp)) hfile
  · exact hname (verb_clean (by simp)) hfile

theorem Grammatical.not_put (h : Grammatical bytes) : ¬ putVerb <+: bytes := by
  rcases h with rfl | ⟨name, -, rfl | rfl⟩ <;> simp [putVerb, listLine, getVerb, deleteVerb]

theorem follows_of_badRequest (hbad : conn.state = .badRequest) (hg : ¬ Grammatical bytes) :
    Follows bytes conn where
  get := fun name => by
    refine ⟨fun h => by simp [hbad] at h, fun h => ?_⟩
    exact absurd (Or.inr ⟨name, h.2, Or.inl h.1⟩) hg
  delete := fun name => by
    refine ⟨fun h => by simp [hbad] at h, fun h => ?_⟩
    exact absurd (Or.inr ⟨name, h.2, Or.inr h.1⟩) hg
  list := ⟨fun h => by simp [hbad] at h, fun h => absurd (Or.inl h) hg⟩
  bad := fun _ _ _ => hbad

theorem follows_of_put (hput : putVerb <+: bytes) (hcmd : conn.state = .parsed → conn.cmd = .put) :
    Follows bytes conn where
  get := fun name => by
    refine ⟨fun h => by simp [hcmd h.1] at h, fun h => ?_⟩
    exact absurd hput (Grammatical.not_put (Or.inr ⟨name, h.2, Or.inl h.1⟩))
  delete := fun name => by
    refine ⟨fun h => by simp [hcmd h.1] at h, fun h => ?_⟩
    exact absurd hput (Grammatical.not_put (Or.inr ⟨name, h.2, Or.inr h.1⟩))
  list := by
    refine ⟨fun h => by simp [hcmd h.1] at h, fun h => ?_⟩
    exact absurd hput (Grammatical.not_put (Or.inl h))
  bad := fun h => absurd (putVerb_prefix_firstLine hput) h

theorem follows_of_get {name : Name} (hname : IsFilename name) (hstate : conn.state = .parsed)
    (hcmd : conn.cmd = .get) (hfile : conn.filename = name) :
    Follows (getVerb ++ name ++ [10]) conn where
  get := fun name' => by
    refine ⟨fun h => ?_, fun h => ⟨hstate, hcmd, ?_⟩⟩
    · rw [← h.2.2, hfile]
      exact ⟨rfl, hname⟩
    · rw [hfile]
      simpa [List.append_assoc] using h.1
  delete := fun name' => by simp [hcmd, getVerb, deleteVerb]
  list := by simp [hcmd, getVerb, listLine]
  bad := fun _ hno _ => absurd rfl (hno name hname).1

theorem follows_of_delete {name : Name} (hname : IsFilename name) (hstate : conn.state = .parsed)
    (hcmd : conn.cmd = .delete) (hfile : conn.filename = name) :
    Follows (deleteVerb ++ name ++ [10]) conn where
  get := fun name' => by simp [hcmd, getVerb, deleteVerb]
  delete := fun name' => by
    refine ⟨fun h => ?_, fun h => ⟨hstate, hcmd, ?_⟩⟩
    · rw [← h.2.2, hfile]
      exact ⟨rfl, hname⟩
    · rw [hfile]
      simpa [List.append_assoc] using h.1
  list := by simp [hcmd, deleteVerb, listLine]
  bad := fun _ hno _ => absurd rfl (hno name hname).2

theorem follows_of_list (hstate : conn.state = .parsed) (hcmd : conn.cmd = .list) :
    Follows listLine conn where
  get := fun name' => by simp [hcmd, getVerb, listLine]
  delete := fun name' => by simp [hcmd, deleteVerb, listLine]
  list := ⟨fun _ => rfl, fun _ => ⟨hstate, hcmd⟩⟩
  bad := fun _ _ hno => absurd rfl hno

theorem Follows.grammatical (h : Follows bytes conn) (hstate : conn.state = .parsed)
    (hcmd : conn.cmd ≠ .put) : Grammatical bytes := by
  cases hc : conn.cmd with
  | put => exact absurd hc hcmd
  | get =>
    obtain ⟨hbytes, hname⟩ := (h.get conn.filename).mp ⟨hstate, hc, rfl⟩
    exact Or.inr ⟨_, hname, Or.inl hbytes⟩
  | delete =>
    obtain ⟨hbytes, hname⟩ := (h.delete conn.filename).mp ⟨hstate, hc, rfl⟩
    exact Or.inr ⟨_, hname, Or.inr hbytes⟩
  | list => exact Or.inl (h.list.mp ⟨hstate, hc⟩)

end Follows

/-! ## The connection after its header -/

/-- A connection that was just accepted. -/
def freshConn (incoming : Source) (outSched : List Sys) : Conn :=
  ⟨incoming, ⟨[], outSched⟩, .fresh, .get, [], false⟩

section Judged

variable {V D : Type} (vec : VectorOps V Name) (dict : DictOps D Name Nat) {st : Store V D}
  {conn : Conn} {scratch : Scratch} {bytes text rest : List UInt8} {s : Source}

theorem readHeader_bad (h : (parseHeader scratch conn.incoming).1 = .bad) :
    (readHeader vec dict st conn scratch).2.state = .badRequest := by
  obtain ⟨s, hparse⟩ : ∃ s, parseHeader scratch conn.incoming = (.bad, s) := ⟨_, Prod.ext h rfl⟩
  rw [readHeader, hparse]

section ParseLine

variable {stack : Around}

theorem parseLine_put (h : putVerb <+: text) :
    parseLine stack text s = (.put (filenameOf text 4), s) := by
  have hget : ¬ getVerb <+: text := by
    obtain ⟨rest, rfl⟩ := h
    simp [getVerb, putVerb]
  rw [parseLine, if_neg hget, if_pos h]

theorem parseLine_bad (hget : ¬ getVerb <+: text) (hput : ¬ putVerb <+: text)
    (hdelete : ¬ deleteVerb <+: text) (hlist : text ≠ listLine) :
    parseLine stack text s = (.bad, s) := by
  rw [parseLine, if_neg hget, if_neg hput, if_neg hdelete, if_neg hlist]

theorem parseLine_get (hmore : (readAfterNewline stack s).1 = false) (h : getVerb <+: text) :
    (parseLine stack text s).1 = .get (filenameOf text 4) := by
  rw [parseLine, if_pos h]
  simp [hmore]

theorem parseLine_delete (hmore : (readAfterNewline stack s).1 = false) (h : deleteVerb <+: text) :
    (parseLine stack text s).1 = .delete (filenameOf text 7) := by
  have hother : ¬ getVerb <+: text ∧ ¬ putVerb <+: text := by
    obtain ⟨rest, rfl⟩ := h
    simp [getVerb, putVerb, deleteVerb]
  rw [parseLine, if_neg hother.1, if_neg hother.2, if_pos h]
  simp [hmore]

theorem parseLine_list (hmore : (readAfterNewline stack s).1 = false) :
    (parseLine stack listLine s).1 = .list := by
  rw [parseLine, if_neg (by decide), if_neg (by decide), if_neg (by decide), if_pos rfl]
  simp [hmore]

end ParseLine

theorem readHeader_get (conn : Conn) {name : Name} (h : (parseHeader scratch conn.incoming).1 = .get name) :
    (readHeader vec dict st conn scratch).2.state = .parsed ∧
      (readHeader vec dict st conn scratch).2.cmd = .get ∧
      (readHeader vec dict st conn scratch).2.filename = name := by
  obtain ⟨s, hparse⟩ : ∃ s, parseHeader scratch conn.incoming = (.get name, s) := ⟨_, Prod.ext h rfl⟩
  rw [readHeader, hparse]
  exact ⟨rfl, rfl, rfl⟩

theorem readHeader_delete (conn : Conn) {name : Name}
    (h : (parseHeader scratch conn.incoming).1 = .delete name) :
    (readHeader vec dict st conn scratch).2.state = .parsed ∧
      (readHeader vec dict st conn scratch).2.cmd = .delete ∧
      (readHeader vec dict st conn scratch).2.filename = name := by
  obtain ⟨s, hparse⟩ : ∃ s, parseHeader scratch conn.incoming = (.delete name, s) :=
    ⟨_, Prod.ext h rfl⟩
  rw [readHeader, hparse]
  exact ⟨rfl, rfl, rfl⟩

theorem readHeader_list (conn : Conn) (h : (parseHeader scratch conn.incoming).1 = .list) :
    (readHeader vec dict st conn scratch).2.state = .parsed ∧
      (readHeader vec dict st conn scratch).2.cmd = .list := by
  obtain ⟨s, hparse⟩ : ∃ s, parseHeader scratch conn.incoming = (.list, s) := ⟨_, Prod.ext h rfl⟩
  rw [readHeader, hparse]
  exact ⟨rfl, rfl⟩

theorem readHeader_cmd {name : Name} (h : (parseHeader scratch conn.incoming).1 = .put name) :
    (readHeader vec dict st conn scratch).2.cmd = .put := by
  obtain ⟨s, hparse⟩ : ∃ s, parseHeader scratch conn.incoming = (.put name, s) := ⟨_, Prod.ext h rfl⟩
  rw [readHeader, hparse]

/-- What the connection of a stream in the grammar becomes. -/
theorem Grammatical.follows (h : Grammatical bytes) (outSched sched : List Sys) :
    Follows bytes (readHeader vec dict st (freshConn ⟨bytes, sched⟩ outSched) scratch).2 := by
  obtain ⟨sched', hparse⟩ := Header.parse (s := ⟨bytes, sched⟩) (h.header scratch.heap)
  have hfirst := congrArg Prod.fst hparse
  have hmore := readAfterNewline_nil scratch.stack sched'
  rcases h with rfl | ⟨name, hname, rfl | rfl⟩
  · rw [parseLine_list hmore] at hfirst
    obtain ⟨hstate, hcmd⟩ := readHeader_list vec dict (freshConn _ outSched) hfirst
    exact follows_of_list hstate hcmd
  · rw [parseLine_get hmore (by simp [List.append_assoc]), show 4 = getVerb.length from rfl,
      filenameOf_line] at hfirst
    obtain ⟨hstate, hcmd, hfile⟩ := readHeader_get vec dict (freshConn _ outSched) hfirst
    exact follows_of_get hname hstate hcmd hfile
  · rw [parseLine_delete hmore (by simp [List.append_assoc]), show 7 = deleteVerb.length from rfl,
      filenameOf_line] at hfirst
    obtain ⟨hstate, hcmd, hfile⟩ := readHeader_delete vec dict (freshConn _ outSched) hfirst
    exact follows_of_delete hname hstate hcmd hfile

/-- Whatever starts with a verb and has a header may be accepted. -/
theorem exists_accepted (outSched : List Sys) (hover : ¬ Overlong bytes)
    (hverb : getVerb <+: bytes ∨ deleteVerb <+: bytes ∨ listLine <+: bytes) :
    ∃ scratch conn, (readHeader vec dict st (freshConn ⟨bytes, []⟩ outSched) scratch).2 = conn ∧
      conn.state = .parsed ∧ conn.cmd ≠ .put := by
  have hheader : ∃ heap text rest, Header heap bytes text rest ∧
      (getVerb <+: text ∨ deleteVerb <+: text ∨ text = listLine) := by
    have hany : ∃ heap text rest, Header heap bytes text rest := by
      simpa only [not_forall, not_not] using mt forall_not_header_iff.mp hover
    rcases hverb with hget | hdelete | ⟨rest, rfl⟩
    · obtain ⟨heap, text, rest, hheader⟩ := hany
      exact ⟨heap, text, rest, hheader,
        Or.inl ((hheader.prefix_iff (by simp)).mpr hget)⟩
    · obtain ⟨heap, text, rest, hheader⟩ := hany
      exact ⟨heap, text, rest, hheader,
        Or.inr (Or.inl ((hheader.prefix_iff (by simp)).mpr hdelete))⟩
    · have hline : Header [] (listLine ++ rest) ([76, 73, 83, 84] ++ [10]) rest :=
        .line rfl (by simp) (by decide)
      exact ⟨[], _, rest, hline, Or.inr (Or.inr rfl)⟩
  obtain ⟨heap, text, rest, hheader, htext⟩ := hheader
  obtain ⟨sched, hparse⟩ := @Header.parse ⟨.newline, heap⟩ _ _ ⟨bytes, []⟩ hheader
  have hfirst := congrArg Prod.fst hparse
  have hmore := readAfterNewline_newline ⟨rest, sched⟩
  refine ⟨⟨.newline, heap⟩, _, rfl, ?_⟩
  rcases htext with htext | htext | rfl
  · rw [parseLine_get hmore htext] at hfirst
    obtain ⟨hstate, hcmd, -⟩ := readHeader_get vec dict (freshConn _ outSched) hfirst
    exact ⟨hstate, by rw [hcmd]; decide⟩
  · rw [parseLine_delete hmore htext] at hfirst
    obtain ⟨hstate, hcmd, -⟩ := readHeader_delete vec dict (freshConn _ outSched) hfirst
    exact ⟨hstate, by rw [hcmd]; decide⟩
  · rw [parseLine_list hmore] at hfirst
    obtain ⟨hstate, hcmd⟩ := readHeader_list vec dict (freshConn _ outSched) hfirst
    exact ⟨hstate, by rw [hcmd]; decide⟩

theorem readHeader_of_put (h : putVerb <+: bytes) (outSched sched : List Sys)
    (hstate : (readHeader vec dict st (freshConn ⟨bytes, sched⟩ outSched) scratch).2.state = .parsed) :
    (readHeader vec dict st (freshConn ⟨bytes, sched⟩ outSched) scratch).2.cmd = .put := by
  by_cases hheader : ∃ text rest, Header scratch.heap bytes text rest
  · obtain ⟨text, rest, hheader⟩ := hheader
    obtain ⟨sched', hparse⟩ := Header.parse (s := ⟨bytes, sched⟩) hheader
    rw [parseLine_put ((hheader.prefix_iff (by simp)).mpr h)] at hparse
    exact readHeader_cmd vec dict (congrArg Prod.fst hparse)
  · have hbad := parseHeader_of_forall_not (s := ⟨bytes, sched⟩) fun text rest hheader' =>
      hheader ⟨text, rest, hheader'⟩
    rw [readHeader_bad vec dict hbad] at hstate
    exact absurd hstate (by decide)

/-- Streams without a verb are bad requests. -/
theorem parseHeader_bad {sched : List Sys} (h : Overlong bytes ∨
    ¬ (getVerb <+: bytes ∨ deleteVerb <+: bytes ∨ listLine <+: bytes)) (hput : ¬ putVerb <+: bytes) :
    (parseHeader scratch ⟨bytes, sched⟩).1 = .bad := by
  by_cases hheader : ∃ text rest, Header scratch.heap bytes text rest
  · obtain ⟨text, rest, hheader⟩ := hheader
    have hverb := h.resolve_left fun hover => forall_not_header_iff.mpr hover _ _ _ hheader
    obtain ⟨sched', hparse⟩ := Header.parse (s := ⟨bytes, sched⟩) hheader
    have hverbs : ∀ verb ∈ [getVerb, putVerb, deleteVerb], ¬ verb <+: bytes → ¬ verb <+: text :=
      fun verb hmem hno htext => hno ((hheader.prefix_iff hmem).mp htext)
    rw [parseLine_bad (hverbs _ (by simp) fun h => hverb (Or.inl h)) (hverbs _ (by simp) hput)
      (hverbs _ (by simp) fun h => hverb (Or.inr (Or.inl h))) ?_] at hparse
    · exact congrArg Prod.fst hparse
    · rintro rfl
      exact hverb (Or.inr (Or.inr (hheader.prefix_of_lt (by decide))))
  · exact parseHeader_of_forall_not fun text rest hheader' => hheader ⟨text, rest, hheader'⟩

/-- **The grammar of requests** is respected for a stream, whatever the memory that the server does
not initialise holds, exactly if the stream is in the grammar, or starts with none of the verbs
but `PUT`, or fills the header and has a NUL where a newline was expected. -/
theorem grammar_iff (outSched : List Sys) :
    (∀ sched scratch, Follows bytes
      (readHeader vec dict st (freshConn ⟨bytes, sched⟩ outSched) scratch).2) ↔ Judged bytes := by
  constructor
  · intro h
    by_contra hj
    obtain ⟨hg, hput, hverb, hover⟩ : ¬ Grammatical bytes ∧ ¬ putVerb <+: bytes ∧
        (getVerb <+: bytes ∨ deleteVerb <+: bytes ∨ listLine <+: bytes) ∧ ¬ Overlong bytes := by
      unfold Judged at hj
      tauto
    obtain ⟨scratch, conn, hconn, hstate, hcmd⟩ := exists_accepted vec dict outSched hover hverb
    have hfollows := h [] scratch
    rw [hconn] at hfollows
    exact hg (hfollows.grammatical hstate hcmd)
  · intro hj sched scratch
    by_cases hg : Grammatical bytes
    · exact hg.follows vec dict outSched sched
    · -- outside of the grammar the request is refused, or is a `PUT`
      by_cases hput : putVerb <+: bytes
      · exact follows_of_put hput (readHeader_of_put vec dict hput outSched sched)
      · refine follows_of_badRequest (readHeader_bad vec dict (parseHeader_bad ?_ hput)) hg
        exact ((hj.resolve_left hg).resolve_left hput).symm

/-- A request without its newline: `"GET ab"`, after which the client closes its side, is a request
for the file `"a"`. -/
theorem not_follows_cut : ¬ ∀ sched scratch, Follows [71, 69, 84, 32, 97, 98]
    (readHeader listVector listDict (World.start listVector listDict).store
      (freshConn ⟨[71, 69, 84, 32, 97, 98], sched⟩ []) scratch).2 := by
  intro h
  have hcut := ((h [] .zeroed).get [97]).mp (by decide +kernel)
  exact absurd hcut.1 (by decide)

end Judged

end SystemProgramming.Networking
