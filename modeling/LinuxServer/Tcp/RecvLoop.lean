import LinuxServer.Framework.TerminatedText

/-!
# The receive loops of the TCP server and client

`server.c`, `client.c` and `server copy.c` print what they receive with
`printf("%s", recvBuf)`, but `read` stores no terminator: the text printed is
the chunk followed by whatever the buffer still holds behind it.

- §1 the three loops, every branch after `read`.
- §2 what the buffer remembers. `server.c` and `client.c` zero it once, before
  the loop, so a cell is NUL iff no chunk so far reached it (`Remembers`).
- §3 exactly which chunk sequences are printed faithfully.
-/

namespace LinuxServer.Tcp

open LinuxServer.Framework

/-! ## §1  The loops -/

/-- `char recvBuf[1024]`. -/
abbrev RecvBuf : Type := Buf Byte 1024

/-- `char recvBuf[1024] = {0};`. -/
def zeroed : RecvBuf := Buf.fill NUL 1024

/-- The bytes one successful `read(fd, recvBuf, sizeof(recvBuf))` stores. -/
structure Chunk where
  bytes : List Byte
  pos : 0 < bytes.length
  le : bytes.length ≤ 1024

/-- The cases of `read`'s return value: `-1`, `0` and a byte count. -/
inductive ReadResult where
  | error
  | closed
  | data (c : Chunk)

/-- What a program does that others can see. A received text is `none` when
`%s` finds no terminator inside `recvBuf`; C gives that call no meaning. -/
inductive Event where
  | recv (label : String) (text : Option (List Byte))
  | closed (message : String)
  | perror (message : String)
  | write (data : List Byte)
  | sleep (seconds : ℕ)
deriving DecidableEq

/-- How the body of `while(1)` ends. -/
inductive Flow where
  | next
  | leave
  | exit (status : Int)
deriving DecidableEq

/-- `read` and the `if` chain after it, the same in all three programs but for
the texts. The buffer is the one passed to `read`. -/
def receive (label message : String) (recvBuf : RecvBuf) :
    ReadResult → RecvBuf × List Event × Flow
  | .error => (recvBuf, [.perror "read"], .exit (-1))
  | .data c =>
      let recvBuf := recvBuf.overwrite c.bytes c.le
      (recvBuf, [.recv label (upTo NUL recvBuf.cells)], .next)
  | .closed => (recvBuf, [.closed message], .leave)

/-- The end of the body of both servers: the reply follows unless the loop is
being left. -/
def reply (data : List Byte) :
    RecvBuf × List Event × Flow → RecvBuf × List Event × Flow
  | (recvBuf, events, .next) => (recvBuf, events ++ [.write data], .next)
  | r => r

def serverData : List Byte := literal "hello,i am server"

def clientData : List Byte := literal "hello,i am client"

/-- The loop body of `server.c`. -/
def serverBody (recvBuf : RecvBuf) (r : ReadResult) :
    RecvBuf × List Event × Flow :=
  reply serverData (receive "recv client data : " "clinet closed..." recvBuf r)

/-- The loop body of `client.c`: it writes before it reads. -/
def clientBody (recvBuf : RecvBuf) (r : ReadResult) :
    RecvBuf × List Event × Flow :=
  let (recvBuf, events, flow) :=
    receive "recv server data : " "server closed..." recvBuf r
  (recvBuf, .write clientData :: .sleep 1 :: events, flow)

/-- The loop body of `server copy.c`: it declares a `recvBuf` of its own, so
the one declared before the loop is never read into. -/
def serverCopyBody (_ : RecvBuf) (r : ReadResult) :
    RecvBuf × List Event × Flow :=
  let recvBuf := zeroed
  reply serverData (receive "recv client data: " "client closed .." recvBuf r)

/-- `while(1) body`, as far as the results of `read` are known. -/
def loop (body : RecvBuf → ReadResult → RecvBuf × List Event × Flow) :
    RecvBuf → List ReadResult → List Event × Flow
  | _, [] => ([], .next)
  | recvBuf, r :: rs =>
      match body recvBuf r with
      | (recvBuf, events, .next) =>
          let (events', flow) := loop body recvBuf rs
          (events ++ events', flow)
      | (_, events, flow) => (events, flow)

/-- The arguments of the `%s` in order, as printed. -/
def texts (events : List Event) : List (Option (List Byte)) :=
  events.filterMap fun
    | .recv _ text => some text
    | _ => none

theorem texts_append (xs ys : List Event) :
    texts (xs ++ ys) = texts xs ++ texts ys := by
  simp [texts, List.filterMap_append]

/-- The texts a program prints while `read` returns `cs`, one chunk after the
other. -/
def printed (body : RecvBuf → ReadResult → RecvBuf × List Event × Flow)
    (cs : List Chunk) : List (Option (List Byte)) :=
  texts (loop body zeroed (cs.map .data)).1

/-- Every iteration prints its own chunk, nothing more, and finds the
terminator inside the buffer. -/
def PrintsExactly (body : RecvBuf → ReadResult → RecvBuf × List Event × Flow)
    (cs : List Chunk) : Prop :=
  printed body cs = cs.map fun c => some c.bytes

/-! ## §2  What the buffer remembers -/

/-- The texts of a loop that keeps its buffer from one `read` to the next. -/
def carriedTexts : RecvBuf → List Chunk → List (Option (List Byte))
  | _, [] => []
  | recvBuf, c :: cs =>
      let recvBuf := recvBuf.overwrite c.bytes c.le
      upTo NUL recvBuf.cells :: carriedTexts recvBuf cs

theorem server_texts : ∀ (cs : List Chunk) (b : RecvBuf),
    texts (loop serverBody b (cs.map .data)).1 = carriedTexts b cs
  | [], _ => rfl
  | c :: cs, b => by
      have ih := server_texts cs (b.overwrite c.bytes c.le)
      rw [carriedTexts, ← ih]
      rfl

theorem client_texts : ∀ (cs : List Chunk) (b : RecvBuf),
    texts (loop clientBody b (cs.map .data)).1 = carriedTexts b cs
  | [], _ => rfl
  | c :: cs, b => by
      have ih := client_texts cs (b.overwrite c.bytes c.le)
      rw [carriedTexts, ← ih]
      rfl

/-- The copy forgets: each text depends on its own chunk only. -/
theorem serverCopy_texts : ∀ (cs : List Chunk) (b : RecvBuf),
    texts (loop serverCopyBody b (cs.map .data)).1 =
      cs.map fun c => upTo NUL (zeroed.overwrite c.bytes c.le).cells
  | [], _ => rfl
  | c :: cs, b => by
      have ih := serverCopy_texts cs (zeroed.overwrite c.bytes c.le)
      rw [List.map_cons, List.map_cons, ← ih]
      rfl

/-- After the chunks `seen` a cell is NUL exactly if no chunk reached it. -/
def Remembers (seen : List Chunk) (b : RecvBuf) : Prop :=
  ∀ i, i < 1024 → (b.cells[i]? = some NUL ↔ ∀ c ∈ seen, c.bytes.length ≤ i)

theorem zeroed_remembers : Remembers [] zeroed := by
  intro i hi
  simp [zeroed, Buf.fill_getElem? hi]

theorem read_remembers {seen : List Chunk} {b : RecvBuf} {c : Chunk}
    (h : Remembers seen b) (hc : NUL ∉ c.bytes) :
    Remembers (c :: seen) (b.overwrite c.bytes c.le) := by
  intro i hi
  rw [List.forall_mem_cons]
  by_cases hlt : i < c.bytes.length
  · -- under the chunk: a chunk byte, so not NUL
    rw [Buf.overwrite_getElem?_lt hlt, List.getElem?_eq_getElem hlt]
    constructor
    · intro hnul
      exact absurd (Option.some.inj hnul ▸ List.getElem_mem hlt) hc
    · rintro ⟨hle, -⟩
      omega
  · rw [Buf.overwrite_getElem?_ge (by omega), h i hi]
    exact ⟨fun hseen => ⟨by omega, hseen⟩, fun hall => hall.2⟩

/-- **One iteration.** A chunk is printed exactly iff it leaves room for a
terminator and no earlier chunk was longer. -/
theorem text_eq_some_iff {seen : List Chunk} {b : RecvBuf} {c : Chunk}
    (h : Remembers seen b) (hc : NUL ∉ c.bytes) :
    upTo NUL (b.overwrite c.bytes c.le).cells = some c.bytes ↔
      c.bytes.length < 1024 ∧ ∀ d ∈ seen, d.bytes.length ≤ c.bytes.length := by
  rw [upTo_overwrite_eq_some_iff hc]
  by_cases hlt : c.bytes.length < 1024
  · rw [h _ hlt]
    exact ⟨fun hseen => ⟨hlt, hseen⟩, fun hall => hall.2⟩
  · -- a full buffer has no cell behind the chunk
    have hlen : b.cells.length ≤ c.bytes.length := by
      rw [b.size]
      omega
    rw [List.getElem?_eq_none hlen]
    simp [hlt]

/-! ## §3  Which sequences of chunks are printed exactly -/

/-- No chunk fills the buffer. -/
def LeavesRoom (cs : List Chunk) : Prop :=
  ∀ c ∈ cs, c.bytes.length < 1024

/-- No chunk is shorter than one before it. -/
def NeverShrinks (cs : List Chunk) : Prop :=
  cs.Pairwise fun c d => c.bytes.length ≤ d.bytes.length

theorem carriedTexts_exact_iff : ∀ {cs seen : List Chunk} {b : RecvBuf},
    Remembers seen b → (∀ c ∈ cs, NUL ∉ c.bytes) →
    (carriedTexts b cs = (cs.map fun c => some c.bytes) ↔
      LeavesRoom cs ∧ NeverShrinks cs ∧
        ∀ c ∈ cs, ∀ d ∈ seen, d.bytes.length ≤ c.bytes.length)
  | [], _, _, _, _ => by simp [carriedTexts, LeavesRoom, NeverShrinks]
  | c :: cs, seen, b, h, hnul => by
      have hc : NUL ∉ c.bytes := hnul c List.mem_cons_self
      have ih := carriedTexts_exact_iff (read_remembers h hc)
        (fun d hd => hnul d (List.mem_cons_of_mem c hd))
      rw [carriedTexts, List.map_cons, List.cons.injEq, text_eq_some_iff h hc, ih]
      simp only [LeavesRoom, NeverShrinks, List.forall_mem_cons,
        List.pairwise_cons]
      constructor
      · rintro ⟨⟨hroom, hseen⟩, hrooms, hshrink, hrest⟩
        exact ⟨⟨hroom, hrooms⟩, ⟨fun d hd => (hrest d hd).1, hshrink⟩, hseen,
          fun d hd => (hrest d hd).2⟩
      · rintro ⟨⟨hroom, hrooms⟩, ⟨hhead, hshrink⟩, hseen, hrest⟩
        exact ⟨⟨hroom, hseen⟩, hrooms, hshrink,
          fun d hd => ⟨hhead d hd, hrest d hd⟩⟩

theorem carriedTexts_zeroed_exact_iff {cs : List Chunk}
    (hnul : ∀ c ∈ cs, NUL ∉ c.bytes) :
    carriedTexts zeroed cs = (cs.map fun c => some c.bytes) ↔
      LeavesRoom cs ∧ NeverShrinks cs := by
  rw [carriedTexts_exact_iff zeroed_remembers hnul]
  simp

theorem freshTexts_exact_iff {cs : List Chunk}
    (hnul : ∀ c ∈ cs, NUL ∉ c.bytes) :
    (cs.map fun c => upTo NUL (zeroed.overwrite c.bytes c.le).cells) =
      (cs.map fun c => some c.bytes) ↔ LeavesRoom cs := by
  rw [List.map_inj_left]
  constructor
  · intro h c hc
    exact ((text_eq_some_iff zeroed_remembers (hnul c hc)).mp (h c hc)).1
  · intro h c hc
    exact (text_eq_some_iff zeroed_remembers (hnul c hc)).mpr
      ⟨h c hc, by simp⟩

/-- **When the loops print what they receive.** `server.c` and `client.c` do
so exactly on the sequences that never shrink and never fill the buffer;
`server copy.c`, which clears its buffer each time, exactly on those that
never fill it. -/
theorem receive_loops_print_exactly_iff (cs : List Chunk)
    (hnul : ∀ c ∈ cs, NUL ∉ c.bytes) :
    (PrintsExactly serverBody cs ↔ LeavesRoom cs ∧ NeverShrinks cs) ∧
    (PrintsExactly clientBody cs ↔ LeavesRoom cs ∧ NeverShrinks cs) ∧
    (PrintsExactly serverCopyBody cs ↔ LeavesRoom cs) := by
  refine ⟨?_, ?_, ?_⟩
  · rw [PrintsExactly, printed, server_texts]
    exact carriedTexts_zeroed_exact_iff hnul
  · rw [PrintsExactly, printed, client_texts]
    exact carriedTexts_zeroed_exact_iff hnul
  · rw [PrintsExactly, printed, serverCopy_texts]
    exact freshTexts_exact_iff hnul

def helloChunk : Chunk := ⟨literal "hello", by decide, by decide⟩

def hiChunk : Chunk := ⟨literal "hi", by decide, by decide⟩

/-- A chunk that fills the buffer. -/
def fullChunk : Chunk :=
  ⟨List.replicate 1024 97, by rw [List.length_replicate]; decide,
    by rw [List.length_replicate]⟩

theorem growing_chunks_printed_exactly :
    PrintsExactly serverBody [hiChunk, helloChunk] ∧
      PrintsExactly clientBody [hiChunk, helloChunk] ∧
      PrintsExactly serverCopyBody [helloChunk, hiChunk] := by
  have hup := receive_loops_print_exactly_iff [hiChunk, helloChunk] (by decide)
  have hdown := receive_loops_print_exactly_iff [helloChunk, hiChunk] (by decide)
  have hroom : LeavesRoom [hiChunk, helloChunk] := by
    unfold LeavesRoom
    decide
  have hroom' : LeavesRoom [helloChunk, hiChunk] := by
    unfold LeavesRoom
    decide
  have hshrink : NeverShrinks [hiChunk, helloChunk] := by
    unfold NeverShrinks
    decide
  exact ⟨hup.1.mpr ⟨hroom, hshrink⟩, hup.2.1.mpr ⟨hroom, hshrink⟩,
    hdown.2.2.mpr hroom'⟩

theorem fullChunk_nul_free : NUL ∉ fullChunk.bytes := by
  intro h
  exact absurd (List.eq_of_mem_replicate h) (by decide)

theorem fullChunk_text (b : RecvBuf) :
    upTo NUL (b.overwrite fullChunk.bytes fullChunk.le).cells = none := by
  have hdrop : b.cells.drop fullChunk.bytes.length = [] := by
    rw [List.drop_eq_nil_iff, b.size]
    exact Nat.le_of_eq List.length_replicate.symm
  rw [upTo_eq_none_iff, b.overwrite_cells, hdrop, List.append_nil]
  exact fullChunk_nul_free

theorem fullChunk_carried_text (b : RecvBuf) :
    carriedTexts b [fullChunk] = [none] := by
  rw [carriedTexts, fullChunk_text, carriedTexts]

/-- After `hello`, the chunk `hi` is printed as `hillo` by the two loops that
keep their buffer, and a chunk of 1024 bytes sends `%s` past the buffer in all
three. -/
theorem stale_bytes_are_printed :
    (∀ c ∈ [helloChunk, hiChunk], NUL ∉ c.bytes) ∧ NUL ∉ fullChunk.bytes ∧
      printed serverBody [helloChunk, hiChunk] =
        [some (literal "hello"), some (literal "hillo")] ∧
      printed clientBody [helloChunk, hiChunk] =
        [some (literal "hello"), some (literal "hillo")] ∧
      ¬ PrintsExactly serverBody [helloChunk, hiChunk] ∧
      ¬ PrintsExactly clientBody [helloChunk, hiChunk] ∧
      ¬ PrintsExactly serverBody [fullChunk] ∧
      ¬ PrintsExactly clientBody [fullChunk] ∧
      ¬ PrintsExactly serverCopyBody [fullChunk] ∧
      printed serverCopyBody [fullChunk] = [none] := by
  have hnul : ∀ c ∈ [helloChunk, hiChunk], NUL ∉ c.bytes := by decide
  have hshrink : ¬ NeverShrinks [helloChunk, hiChunk] := by
    unfold NeverShrinks
    decide
  refine ⟨hnul, fullChunk_nul_free, by decide +kernel, by decide +kernel,
    ?_, ?_, ?_, ?_, ?_, ?_⟩
  · rw [PrintsExactly, printed, server_texts, carriedTexts_zeroed_exact_iff hnul]
    exact fun h => hshrink h.2
  · rw [PrintsExactly, printed, client_texts, carriedTexts_zeroed_exact_iff hnul]
    exact fun h => hshrink h.2
  · rw [PrintsExactly, printed, server_texts, fullChunk_carried_text]
    simp
  · rw [PrintsExactly, printed, client_texts, fullChunk_carried_text]
    simp
  · rw [PrintsExactly, printed, serverCopy_texts, List.map_singleton,
      fullChunk_text]
    simp
  · rw [printed, serverCopy_texts, List.map_singleton, fullChunk_text]

end LinuxServer.Tcp
