import LinuxServer.Tcp.Sockets

/-!
# The server with a thread for each client

`main` accepts, looks for an element of `sockinfos[128]` whose `tid` is `-1`,
puts the descriptor there and creates a thread that is given the element. A
thread reads the descriptor from its element again and again. No thread and no
statement of `main` ever sets a `tid` back to `-1`.

- §1 the server
- §2 the invariant
- §3 the threads do not get in each other's way
- §4 the elements are used up
-/

namespace LinuxServer.ThreadServer

open LinuxServer.Framework LinuxServer.Tcp

/-! ## §1  The server -/

/-- `sockinfo_maxLen`. -/
def maxLen : ℕ := 128

/-- An element of `sockinfos`, with `none` for `-1`. -/
structure SockInfo where
  fd : Option ℕ
  tid : Option ℕ

inductive WorkPc where
  | read
  /-- In `write`, with the bytes that are still to be taken over. -/
  | write (left : List Byte)
  | close
  | done
deriving DecidableEq

/-- `send_buf`. -/
def sendBuf : List Byte := literal "hello, i am server"

/-- A thread that runs `working`: the index of its `pinfo`, its buffer, what it
has read and what it has printed. -/
structure Worker where
  slot : ℕ
  pc : WorkPc
  recvBuf : RecvBuf
  got : List Chunk
  shown : List (List Byte)

def Worker.start (slot : ℕ) : Worker := ⟨slot, .read, zeroed, [], []⟩

inductive MainPc where
  | accept
  /-- The loop over `sockinfos`, at `i`. -/
  | search (connfd i : ℕ)
  /-- The process has exited, or `SIGPIPE` has ended it. -/
  | exit
  /-- A `printf` ran past the `recv_buf` of its thread. -/
  | fault
deriving DecidableEq

def MainPc.Gone : MainPc → Prop
  | .exit | .fault => True
  | _ => False

structure State where
  net : Net
  sockinfos : ℕ → SockInfo
  threads : ℕ → Option Worker
  created : ℕ
  main : MainPc

def State.run (s : State) (t : ℕ) (w : Worker) : State :=
  { s with threads := Function.update s.threads t (some w) }

/-- What `write` returns is not looked at. -/
def State.wrote (s : State) (t : ℕ) (w : Worker) : Written → State
  | .part left => s.run t { w with pc := .write left }
  | .done => s.run t { w with pc := .read }
  | .killed => { s with main := .exit }

/-- `i++`, after `i = -1` at the last element. -/
def nextIndex (i : ℕ) : ℕ := if i = maxLen - 1 then 0 else i + 1

/-- What the process does, as long as no system call fails but `read` and `write`.
Thread ids count from `0`. -/
inductive Serve (listenfd : ℕ) : State → State → Prop where
  | accept {s : State} (hpc : s.main = .accept) (hbacklog : 0 < s.net.backlog) (fd : ℕ)
      (hfd : s.net.Lowest listenfd fd) (c : Socket) (hc : c.Fresh) :
      Serve listenfd s { s with net := s.net.accept fd c, main := .search fd 0 }
  | occupied {s : State} {connfd i : ℕ} (hpc : s.main = .search connfd i)
      (htid : (s.sockinfos i).tid ≠ none) :
      Serve listenfd s { s with main := .search connfd (nextIndex i) }
  | create {s : State} {connfd i : ℕ} (hpc : s.main = .search connfd i)
      (htid : (s.sockinfos i).tid = none) :
      Serve listenfd s { s with
        sockinfos := Function.update s.sockinfos i ⟨some connfd, some s.created⟩
        threads := Function.update s.threads s.created (some (.start i))
        created := s.created + 1
        main := .accept }
  | data {s : State} {t : ℕ} {w : Worker} (hlive : ¬ s.main.Gone) (ht : s.threads t = some w)
      (hpc : w.pc = .read) (fd : ℕ) (hfd : (s.sockinfos w.slot).fd = some fd) (chunk : Chunk)
      (net : Net) (hread : s.net.Read fd (.data chunk) net) (text : List Byte)
      (htext : upTo NUL (w.recvBuf.overwrite chunk.bytes chunk.le).cells = some text) :
      Serve listenfd s { s.run t { w with
        pc := .write sendBuf
        recvBuf := w.recvBuf.overwrite chunk.bytes chunk.le
        got := w.got ++ [chunk]
        shown := w.shown ++ [text] } with net := net }
  | dataOverrun {s : State} {t : ℕ} {w : Worker} (hlive : ¬ s.main.Gone)
      (ht : s.threads t = some w) (hpc : w.pc = .read) (fd : ℕ)
      (hfd : (s.sockinfos w.slot).fd = some fd) (chunk : Chunk) (net : Net)
      (hread : s.net.Read fd (.data chunk) net)
      (htext : upTo NUL (w.recvBuf.overwrite chunk.bytes chunk.le).cells = none) :
      Serve listenfd s { s with net := net, main := .fault }
  | closed {s : State} {t : ℕ} {w : Worker} (hlive : ¬ s.main.Gone) (ht : s.threads t = some w)
      (hpc : w.pc = .read) (fd : ℕ) (hfd : (s.sockinfos w.slot).fd = some fd) (net : Net)
      (hread : s.net.Read fd .closed net) :
      Serve listenfd s { s.run t { w with pc := .close } with net := net }
  /-- `exit(-1)` ends the whole process. -/
  | error {s : State} {t : ℕ} {w : Worker} (hlive : ¬ s.main.Gone) (ht : s.threads t = some w)
      (hpc : w.pc = .read) (fd : ℕ) (hfd : (s.sockinfos w.slot).fd = some fd) (net : Net)
      (hread : s.net.Read fd .error net) :
      Serve listenfd s { s with net := net, main := .exit }
  | write {s : State} {t : ℕ} {w : Worker} {left : List Byte} (hlive : ¬ s.main.Gone)
      (ht : s.threads t = some w) (hpc : w.pc = .write left) (fd : ℕ)
      (hfd : (s.sockinfos w.slot).fd = some fd) (r : Written) (net : Net)
      (hwrite : s.net.Write true fd left r net) :
      Serve listenfd s { s.wrote t w r with net := net }
  | close {s : State} {t : ℕ} {w : Worker} (hlive : ¬ s.main.Gone) (ht : s.threads t = some w)
      (hpc : w.pc = .close) (fd : ℕ) (hfd : (s.sockinfos w.slot).fd = some fd) :
      Serve listenfd s { s.run t { w with pc := .done } with net := s.net.set fd none }

/-- A step of the process or of a client. `accept` may fail. -/
inductive Step (listenfd : ℕ) : State → State → Prop where
  | serve {s s' : State} (h : Serve listenfd s s') : Step listenfd s s'
  | fail {s : State} (hpc : s.main = .accept) : Step listenfd s { s with main := .exit }
  | client {s : State} (net : Net) (h : s.net.Client net) :
      Step listenfd s { s with net := net }

/-- After the initialisation and `listen`. -/
def Start (s : State) : Prop :=
  (∀ fd, s.net.conns fd = none) ∧ (∀ i, s.sockinfos i = ⟨none, none⟩) ∧
    (∀ t, s.threads t = none) ∧ s.created = 0 ∧ s.main = .accept

def server (listenfd : ℕ) : System State where
  init := Start
  step := Step listenfd

/-! ## §2  The invariant -/

/-- Thread `t` is at work on the descriptor `fd`. -/
def State.Serves (s : State) (t fd : ℕ) : Prop :=
  ∃ w, s.threads t = some w ∧ w.pc ≠ .done ∧ (s.sockinfos w.slot).fd = some fd

/-- Since no element is ever freed, thread `t` has element `t`. -/
structure Inv (s : State) : Prop where
  tids : ∀ i, (s.sockinfos i).tid = if i < s.created then some i else none
  slot : ∀ t w, s.threads t = some w → w.slot = t ∧ t < s.created
  fd : ∀ t w, s.threads t = some w → w.pc ≠ .done → ∃ fd, (s.sockinfos t).fd = some fd
  opened : ∀ t fd, s.Serves t fd → (s.net.conns fd).isSome
  apart : ∀ t u fd, s.Serves t fd → s.Serves u fd → t = u
  search : ∀ connfd i, s.main = .search connfd i → i ≤ s.created ∧ i < maxLen ∧
    (s.net.conns connfd).isSome ∧ ∀ t, ¬ s.Serves t connfd
  finite : ∃ bound, ∀ fd, (s.net.conns fd).isSome → fd ≤ bound
  capacity : s.created ≤ maxLen
  texts : ∀ t w, s.threads t = some w →
    w.recvBuf = carried zeroed w.got ∧ w.shown.map some = carriedTexts zeroed w.got

variable {listenfd : ℕ} {s s' : State} {net : Net}

theorem start_inv (h : Start s) : Inv s := by
  obtain ⟨hconns, hinfos, hthreads, hcreated, hmain⟩ := h
  have hserves : ∀ t fd, ¬ s.Serves t fd := by
    rintro t fd ⟨w, hw, -⟩
    rw [hthreads t] at hw
    cases hw
  refine ⟨fun i => ?_, fun t w hw => ?_, fun t w hw => ?_,
    fun t fd h => absurd h (hserves t fd), fun t _ fd h => absurd h (hserves t fd),
    fun connfd i h => ?_, ⟨0, fun fd hfd => ?_⟩, ?_, fun t w hw => ?_⟩
  · rw [hinfos i, hcreated, if_neg (Nat.not_lt_zero i)]
  · rw [hthreads t] at hw
    cases hw
  · rw [hthreads t] at hw
    cases hw
  · rw [hmain] at h
    cases h
  · rw [hconns fd] at hfd
    cases hfd
  · rw [hcreated]
    exact Nat.zero_le _
  · rw [hthreads t] at hw
    cases hw

/-- After thread `t` was changed, a thread is the new `t` or an old one. -/
theorem update_eq_some {threads : ℕ → Option Worker} {t u : ℕ} {w v : Worker}
    (h : Function.update threads t (some w) u = some v) :
    u = t ∧ v = w ∨ u ≠ t ∧ threads u = some v := by
  by_cases hut : u = t
  · rw [hut, Function.update_self] at h
    exact .inl ⟨hut, (Option.some.inj h).symm⟩
  · rw [Function.update_of_ne hut] at h
    exact .inr ⟨hut, h⟩

/-- A step of thread `t` that keeps its element: it goes on with what it serves,
or is done. The other threads serve what they served. -/
theorem serves_run {t u fd : ℕ} {w w' : Worker} (ht : s.threads t = some w)
    (h : State.Serves { s.run t w' with net := net } u fd) (hslot : w'.slot = w.slot)
    (hdone : w.pc ≠ .done) : s.Serves u fd ∧ (u = t → w'.pc ≠ .done) := by
  obtain ⟨v, hv, hpc, hfd⟩ := h
  rcases update_eq_some hv with ⟨rfl, rfl⟩ | ⟨hut, hv⟩
  · exact ⟨⟨w, ht, hdone, by rw [← hslot]; exact hfd⟩, fun _ => hpc⟩
  · exact ⟨⟨v, hv, hpc, hfd⟩, fun h => absurd h hut⟩

/-- A step of thread `t` with its effect on the connections. -/
theorem Inv.run (hi : Inv s) {t : ℕ} {w w' : Worker} (ht : s.threads t = some w)
    (hslot : w'.slot = w.slot) (hdone : w.pc ≠ .done)
    (hopen : ∀ u fd, s.Serves u fd → (u = t → w'.pc ≠ .done) → (net.conns fd).isSome)
    (hsearch : ∀ connfd i, s.main = .search connfd i → (net.conns connfd).isSome)
    (hsub : ∀ fd, (net.conns fd).isSome → (s.net.conns fd).isSome)
    (htexts : w'.recvBuf = carried zeroed w'.got ∧
      w'.shown.map some = carriedTexts zeroed w'.got) :
    Inv { s.run t w' with net := net } := by
  obtain ⟨bound, hbound⟩ := hi.finite
  refine ⟨hi.tids, fun u v hv => ?_, fun u v hv hpc => ?_, fun u fd hu => ?_,
    fun u u' fd hu hu' => hi.apart u u' fd (serves_run ht hu hslot hdone).1
      (serves_run ht hu' hslot hdone).1,
    fun connfd i hmain => ?_, ⟨bound, fun fd hfd => hbound fd (hsub fd hfd)⟩, hi.capacity,
    fun u v hv => ?_⟩
  · rcases update_eq_some hv with ⟨rfl, rfl⟩ | ⟨-, hv⟩
    · rw [hslot]
      exact hi.slot u w ht
    · exact hi.slot u v hv
  · rcases update_eq_some hv with ⟨rfl, rfl⟩ | ⟨-, hv⟩
    · exact hi.fd u w ht hdone
    · exact hi.fd u v hv hpc
  · obtain ⟨h₁, h₂⟩ := serves_run ht hu hslot hdone
    exact hopen u fd h₁ h₂
  · obtain ⟨hle, hlt, -, hnot⟩ := hi.search connfd i hmain
    exact ⟨hle, hlt, hsearch connfd i hmain,
      fun u hu => hnot u (serves_run ht hu hslot hdone).1⟩
  · rcases update_eq_some hv with ⟨rfl, rfl⟩ | ⟨-, hv⟩
    · exact htexts
    · exact hi.texts u v hv

/-- A step of `main` or a client that leaves the threads alone. -/
theorem Inv.main {main : MainPc} (hi : Inv s)
    (hopen : ∀ fd, (s.net.conns fd).isSome → (net.conns fd).isSome)
    (hfinite : ∃ bound, ∀ fd, (net.conns fd).isSome → fd ≤ bound)
    (hsearch : ∀ connfd i, main = .search connfd i → i ≤ s.created ∧ i < maxLen ∧
      (net.conns connfd).isSome ∧ ∀ t, ¬ s.Serves t connfd) :
    Inv { s with net := net, main := main } :=
  ⟨hi.tids, hi.slot, hi.fd, fun t fd h => hopen fd (hi.opened t fd h), hi.apart, hsearch,
    hfinite, hi.capacity, hi.texts⟩

theorem accept_inv {fd : ℕ} (hi : Inv s) (hfd : s.net.Lowest listenfd fd) (c : Socket) :
    Inv { s with net := s.net.accept fd c, main := .search fd 0 } := by
  obtain ⟨bound, hbound⟩ := hi.finite
  refine hi.main (fun n hn => ?_) ⟨max bound fd, fun n hn => ?_⟩ (fun connfd i h => ?_)
  · exact (s.net.accept_isSome fd c n).mpr (.inr hn)
  · rcases (s.net.accept_isSome fd c n).mp hn with rfl | hn
    · exact le_max_right _ _
    · exact le_trans (hbound n hn) (le_max_left _ _)
  · cases h
    refine ⟨Nat.zero_le _, by decide, ?_, fun t ht => ?_⟩
    · exact (s.net.accept_isSome fd c fd).mpr (.inl rfl)
    · have := hi.opened t fd ht
      rw [hfd.unused] at this
      cases this

/-- The first free element is the one with the number of the new thread. -/
theorem Inv.search_free (hi : Inv s) {connfd i : ℕ} (hpc : s.main = .search connfd i)
    (htid : (s.sockinfos i).tid = none) : i = s.created := by
  have hle := (hi.search connfd i hpc).1
  rw [hi.tids i] at htid
  split at htid
  · cases htid
  · omega

theorem create_inv {connfd : ℕ} (hi : Inv s) (hpc : s.main = .search connfd s.created) :
    Inv { s with
      sockinfos := Function.update s.sockinfos s.created ⟨some connfd, some s.created⟩
      threads := Function.update s.threads s.created (some (.start s.created))
      created := s.created + 1
      main := .accept } := by
  obtain ⟨-, hlt, hopen, hnot⟩ := hi.search connfd _ hpc
  -- what a thread serves now: the new one `connfd`, the others what they did
  have hserves : ∀ {u fd}, State.Serves { s with
      sockinfos := Function.update s.sockinfos s.created ⟨some connfd, some s.created⟩
      threads := Function.update s.threads s.created (some (.start s.created))
      created := s.created + 1
      main := .accept } u fd → u = s.created ∧ fd = connfd ∨ s.Serves u fd := by
    rintro u fd ⟨v, hv, hdone, hfd⟩
    rcases update_eq_some hv with ⟨rfl, rfl⟩ | ⟨hu, hv⟩
    · simp only [Worker.start, Function.update_self] at hfd
      exact .inl ⟨rfl, (Option.some.inj hfd).symm⟩
    · have hslot : v.slot ≠ s.created := by
        have := hi.slot u v hv
        omega
      simp only [Function.update_of_ne hslot] at hfd
      exact .inr ⟨v, hv, hdone, hfd⟩
  refine ⟨fun i => ?_, fun u v hv => ?_, fun u v hv hpc => ?_, fun u fd hu => ?_,
    fun u u' fd hu hu' => ?_, fun _ _ h => (by cases h), hi.finite, hlt, fun u v hv => ?_⟩
  · by_cases hic : i = s.created
    · simp [hic]
    · have hiff : i < s.created + 1 ↔ i < s.created := by omega
      simp only [Function.update_of_ne hic, hi.tids i, hiff]
  · rcases update_eq_some hv with ⟨rfl, rfl⟩ | ⟨-, hv⟩
    · exact ⟨rfl, Nat.lt_succ_self _⟩
    · obtain ⟨h₁, h₂⟩ := hi.slot u v hv
      exact ⟨h₁, Nat.lt_succ_of_lt h₂⟩
  · by_cases hu : u = s.created
    · exact ⟨connfd, by simp [hu]⟩
    · obtain ⟨-, hv⟩ := (update_eq_some hv).resolve_left fun h => hu h.1
      obtain ⟨fd, hfd⟩ := hi.fd u v hv hpc
      exact ⟨fd, by simpa [hu] using hfd⟩
  · rcases hserves hu with ⟨-, rfl⟩ | hu
    · exact hopen
    · exact hi.opened u fd hu
  · rcases hserves hu with ⟨rfl, rfl⟩ | hu <;> rcases hserves hu' with ⟨rfl, heq⟩ | hu'
    · rfl
    · exact absurd hu' (hnot u')
    · exact absurd (heq ▸ hu) (hnot u)
    · exact hi.apart u u' fd hu hu'
  · rcases update_eq_some hv with ⟨rfl, rfl⟩ | ⟨-, hv⟩
    · exact ⟨rfl, rfl⟩
    · exact hi.texts u v hv

theorem occupied_inv {connfd i : ℕ} (hi : Inv s) (hpc : s.main = .search connfd i)
    (htid : (s.sockinfos i).tid ≠ none) :
    Inv { s with main := .search connfd (nextIndex i) } := by
  obtain ⟨-, hlt, hopen, hnot⟩ := hi.search connfd i hpc
  have hused : i < s.created := by
    rw [hi.tids i] at htid
    by_contra h
    exact htid (if_neg h)
  refine hi.main (fun _ h => h) hi.finite (fun connfd' i' h => ?_)
  cases h
  refine ⟨?_, ?_, hopen, hnot⟩
  · unfold nextIndex
    split <;> omega
  · unfold nextIndex
    split <;> unfold maxLen at * <;> omega

/-- A `read` or `write` of a thread opens and closes nothing. -/
theorem Inv.call (hi : Inv s) {t : ℕ} {w w' : Worker}
    (ht : s.threads t = some w) (hslot : w'.slot = w.slot) (hdone : w.pc ≠ .done)
    (hopen : ∀ n, (net.conns n).isSome = (s.net.conns n).isSome)
    (htexts : w'.recvBuf = carried zeroed w'.got ∧
      w'.shown.map some = carriedTexts zeroed w'.got) :
    Inv { s.run t w' with net := net } := by
  refine hi.run ht hslot hdone (fun u fd' hu _ => ?_) (fun connfd i hmain => ?_)
    (fun n hn => hopen n ▸ hn) htexts
  · rw [hopen fd']
    exact hi.opened u fd' hu
  · rw [hopen connfd]
    exact (hi.search connfd i hmain).2.2.1

/-- It may also be the end of the process. -/
theorem Inv.gone {main : MainPc} (hi : Inv s) (hgone : main.Gone)
    (hopen : ∀ n, (net.conns n).isSome = (s.net.conns n).isSome) :
    Inv { s with net := net, main := main } := by
  obtain ⟨bound, hbound⟩ := hi.finite
  refine hi.main (fun n hn => (hopen n).trans hn)
    ⟨bound, fun n hn => hbound n (hopen n ▸ hn)⟩ (fun connfd i h => ?_)
  rw [h] at hgone
  cases hgone

theorem close_inv {t fd : ℕ} {w : Worker} (hi : Inv s) (ht : s.threads t = some w)
    (hpc : w.pc = .close) (hfd : (s.sockinfos w.slot).fd = some fd) :
    Inv { s.run t { w with pc := .done } with net := s.net.set fd none } := by
  have hdone : w.pc ≠ .done := by simp [hpc]
  have hserves : s.Serves t fd := ⟨w, ht, hdone, hfd⟩
  have hother : ∀ {n}, n ≠ fd → (s.net.conns n).isSome → ((s.net.set fd none).conns n).isSome :=
    fun hn h => (s.net.close_isSome fd _).mpr ⟨hn, h⟩
  refine hi.run ht rfl hdone (fun u fd' hu hut => ?_) (fun connfd i hmain => ?_)
    (fun n hn => ?_) (hi.texts t w ht)
  · refine hother (fun heq => ?_) (hi.opened u fd' hu)
    exact hut (hi.apart u t fd (heq ▸ hu) hserves) rfl
  · obtain ⟨-, -, hopen, hnot⟩ := hi.search connfd i hmain
    exact hother (fun heq => hnot t (heq ▸ hserves)) hopen
  · exact ((s.net.close_isSome fd n).mp hn).2

theorem serve_inv (hi : Inv s) (h : Serve listenfd s s') : Inv s' := by
  cases h with
  | accept hpc hbacklog fd hfd c hc => exact accept_inv hi hfd c
  | occupied hpc htid => exact occupied_inv hi hpc htid
  | create hpc htid =>
      obtain rfl := hi.search_free hpc htid
      exact create_inv hi hpc
  | @data t w hlive ht hpc fd hfd chunk net hread text htext =>
      obtain ⟨hbuf, hshown⟩ := hi.texts t w ht
      refine hi.call ht rfl (by simp [hpc]) hread.isSome ⟨?_, ?_⟩
      · rw [carried_concat, ← hbuf]
      · rw [carriedTexts_append, ← hbuf, ← hshown, List.map_append]
        exact congrArg (_ ++ [·]) htext.symm
  | dataOverrun hlive ht hpc fd hfd chunk net hread htext => exact hi.gone trivial hread.isSome
  | @closed t w hlive ht hpc fd hfd net hread =>
      exact hi.call ht rfl (by simp [hpc]) hread.isSome (hi.texts t w ht)
  | error hlive ht hpc fd hfd net hread => exact hi.gone trivial hread.isSome
  | @write t w left hlive ht hpc fd hfd r net hwrite =>
      cases r with
      | part left => exact hi.call ht rfl (by simp [hpc]) hwrite.isSome (hi.texts t w ht)
      | done => exact hi.call ht rfl (by simp [hpc]) hwrite.isSome (hi.texts t w ht)
      | killed => exact hi.gone trivial hwrite.isSome
  | close hlive ht hpc fd hfd => exact close_inv hi ht hpc hfd

theorem step_inv (hi : Inv s) (h : Step listenfd s s') : Inv s' := by
  cases h with
  | serve h => exact serve_inv hi h
  | fail hpc => exact hi.main (fun _ h => h) hi.finite (fun _ _ h => (by cases h))
  | client net h =>
      obtain ⟨bound, hbound⟩ := hi.finite
      refine hi.main (fun n hn => (h.isSome n).trans hn)
        ⟨bound, fun n hn => hbound n (h.isSome n ▸ hn)⟩ (fun connfd i hmain => ?_)
      obtain ⟨hle, hlt, hopen, hnot⟩ := hi.search connfd i hmain
      exact ⟨hle, hlt, (h.isSome connfd).trans hopen, hnot⟩

theorem reachable_inv (h : (server listenfd).Reachable s) : Inv s :=
  System.invariant (I := Inv) (fun _ h0 => start_inv h0) (fun _ _ _ hi hst => step_inv hi hst) h

/-! ## §3  The threads do not get in each other's way -/

/-- **Each thread has its own connection.** A thread that is not done finds an
open descriptor in its element, and no other such thread finds the same, although
descriptors are used again. What it prints is what the receive loop with a buffer
of its own prints. -/
theorem threads_keep_apart {t : ℕ} {w : Worker} (h : (server listenfd).Reachable s)
    (ht : s.threads t = some w) :
    (w.pc ≠ .done → ∃ fd, (s.sockinfos w.slot).fd = some fd ∧ (s.net.conns fd).isSome ∧
      ∀ u, s.Serves u fd → u = t) ∧
      w.shown.map some = carriedTexts zeroed w.got := by
  have hi := reachable_inv h
  refine ⟨fun hpc => ?_, (hi.texts t w ht).2⟩
  obtain ⟨fd, hfd⟩ := hi.fd t w ht hpc
  have hslot := (hi.slot t w ht).1
  have hserves : s.Serves t fd := ⟨w, ht, hpc, by rw [hslot]; exact hfd⟩
  exact ⟨fd, by rw [hslot]; exact hfd, hi.opened t fd hserves,
    fun u hu => hi.apart u t fd hu hserves⟩

/-- A client that has closed its connection. -/
def leaving : Socket := { silent 0 with eof := true }

theorem search_reaches {connfd : ℕ} (h : (server listenfd).Reachable s)
    (hpc : s.main = .search connfd 0) (k : ℕ) (hk : k ≤ s.created) (hlt : k < maxLen) :
    (server listenfd).Reachable { s with main := .search connfd k } := by
  induction k with
  | zero =>
      rw [← hpc]
      exact h
  | succ k ih =>
      have htid : (s.sockinfos k).tid ≠ none := by
        rw [(reachable_inv h).tids k, if_pos (Nat.lt_of_succ_le hk)]
        simp
      have hnext : nextIndex k = k + 1 := by
        unfold nextIndex maxLen at *
        rw [if_neg (by omega)]
      have hstep := (ih (by omega) (by omega)).step (.serve (.occupied rfl htid))
      rwa [hnext] at hstep

/-- A client is accepted, with `created` elements in use. -/
theorem client_gets_thread {conns : ℕ → Option Socket} {infos : ℕ → SockInfo}
    {threads : ℕ → Option Worker} {created : ℕ}
    (h : (server listenfd).Reachable ⟨⟨conns, 0⟩, infos, threads, created, .accept⟩)
    (hlt : created < maxLen) (fd : ℕ) (hfd : Net.Lowest ⟨conns, 0⟩ listenfd fd) {c : Socket}
    (hc : c.Fresh) : (server listenfd).Reachable ⟨⟨Function.update conns fd (some c), 0⟩,
      Function.update infos created ⟨some fd, some created⟩,
      Function.update threads created (some (.start created)), created + 1, .accept⟩ := by
  have h₁ := h.step (.client _ .connect)
  have h₂ : (server listenfd).Reachable ⟨⟨Function.update conns fd (some c), 0⟩, infos, threads,
      created, .search fd 0⟩ :=
    h₁.step (.serve (.accept rfl one_pos fd ⟨hfd.above, hfd.unused, hfd.least⟩ c hc))
  have h₃ := search_reaches h₂ rfl created (le_refl _) hlt
  have htid : (infos created).tid = none := by
    have := (reachable_inv h).tids created
    rwa [if_neg (lt_irrefl created)] at this
  exact h₃.step (.serve (.create rfl htid))

/-- The client of thread `t` has left, and the thread finds it gone. -/
theorem client_leaves {conns : ℕ → Option Socket} {infos : ℕ → SockInfo}
    {threads : ℕ → Option Worker} {created : ℕ}
    (h : (server listenfd).Reachable ⟨⟨conns, 0⟩, infos, threads, created, .accept⟩)
    (t fd : ℕ) (ht : threads t = some (.start t)) (hfd : (infos t).fd = some fd)
    (hc : conns fd = some leaving) : (server listenfd).Reachable
      ⟨⟨Function.update conns fd none, 0⟩, infos,
        Function.update threads t (some ⟨t, .done, zeroed, [], []⟩), created, .accept⟩ := by
  have hgone := h.step (.serve (.closed id ht rfl fd hfd _ (.closed leaving hc rfl rfl)))
  have h₁ : (server listenfd).Reachable ⟨⟨conns, 0⟩, infos,
      Function.update threads t (some ⟨t, .close, zeroed, [], []⟩), created, .accept⟩ := hgone
  have h₂ := h₁.step (.serve (.close id (Function.update_self ..) rfl fd hfd))
  rw [State.run, Function.update_idem] at h₂
  exact h₂

/-- The first client leaves. Its descriptor `4` goes to the next one, which has sent
`hello`, and a third one gets `5`: thread `1` has shown `hello` and has `4` to itself,
although thread `0` still has `4` in its element. -/
theorem threads_keep_apart_reused : ∃ (s : State) (w : Worker), (server 3).Reachable s ∧
    s.threads 1 = some w ∧ (s.sockinfos 0).fd = some 4 ∧ (s.sockinfos w.slot).fd = some 4 ∧
    s.Serves 2 5 ∧ w.shown = [literal "hello"] ∧
    (∃ fd, (s.sockinfos w.slot).fd = some fd ∧ (s.net.conns fd).isSome ∧
      ∀ u, s.Serves u fd → u = 1) ∧ w.shown.map some = carriedTexts zeroed w.got := by
  have h₀ : (server 3).Reachable ⟨⟨fun _ => none, 0⟩, fun _ => ⟨none, none⟩,
      fun _ => none, 0, .accept⟩ := .init ⟨fun _ => rfl, fun _ => rfl, fun _ => rfl, rfl, rfl⟩
  have h₁ := client_gets_thread h₀ (by decide) 4 ⟨by decide, rfl, fun m h h' => by omega⟩
    (c := leaving) ⟨rfl, rfl, rfl⟩
  have h₂ := client_leaves h₁ 0 4 rfl rfl rfl
  have h₃ := client_gets_thread h₂ (by decide) 4 ⟨by decide, rfl, fun m h h' => by omega⟩
    (c := greeting 0) ⟨rfl, rfl, rfl⟩
  have h₄ := client_gets_thread h₃ (by decide) 5 ⟨by decide, rfl, fun m h h' => by
    obtain rfl : m = 4 := by omega
    exact Option.some_ne_none (greeting 0)⟩ (silent_fresh 0)
  have h₅ := h₄.step (.serve (.data (t := 1) (w := .start 1) id rfl rfl 4 rfl helloChunk _
    (.data (greeting 0) helloChunk [] rfl (by simp [greeting, helloChunk])) (literal "hello")
    (by decide +kernel)))
  obtain ⟨hown, hshown⟩ := threads_keep_apart (t := 1) h₅ rfl
  exact ⟨_, _, h₅, rfl, rfl, rfl, ⟨.start 2, rfl, by simp [Worker.start], rfl⟩, rfl,
    hown (by simp), hshown⟩

/-! ## §4  The elements are used up -/

/-- `main` looks for an element for `connfd`, or the process is gone, and no thread
serves `connfd`. -/
def State.Searching (s : State) (connfd : ℕ) : Prop :=
  s.created = maxLen ∧ ((∃ j, s.main = .search connfd j) ∨ s.main.Gone) ∧
    ∀ t, ¬ s.Serves t connfd

theorem serve_searching {connfd : ℕ} (hi : Inv s) (hs : s.Searching connfd)
    (h : Serve listenfd s s') : s'.Searching connfd := by
  obtain ⟨hcreated, hmain, hnot⟩ := hs
  cases h with
  | accept hpc =>
      rw [hpc] at hmain
      rcases hmain with ⟨j, hj⟩ | hgone
      · cases hj
      · cases hgone
  | occupied hpc htid =>
      rw [hpc] at hmain
      rcases hmain with ⟨j, hj⟩ | hgone
      · cases hj
        exact ⟨hcreated, .inl ⟨_, rfl⟩, hnot⟩
      · cases hgone
  | create hpc htid =>
      -- there is no free element
      have hlt := (hi.search _ _ hpc).2.1
      have := hi.search_free hpc htid
      omega
  | data hlive ht hpc =>
      exact ⟨hcreated, hmain, fun u hu => hnot u (serves_run ht hu rfl (by simp [hpc])).1⟩
  | closed hlive ht hpc =>
      exact ⟨hcreated, hmain, fun u hu => hnot u (serves_run ht hu rfl (by simp [hpc])).1⟩
  | dataOverrun | error => exact ⟨hcreated, .inr trivial, hnot⟩
  | write hlive ht hpc fd hfd r net hwrite =>
      cases r with
      | part left =>
          exact ⟨hcreated, hmain, fun u hu => hnot u (serves_run ht hu rfl (by simp [hpc])).1⟩
      | done =>
          exact ⟨hcreated, hmain, fun u hu => hnot u (serves_run ht hu rfl (by simp [hpc])).1⟩
      | killed => exact ⟨hcreated, .inr trivial, hnot⟩
  | close hlive ht hpc =>
      exact ⟨hcreated, hmain, fun u hu => hnot u (serves_run ht hu rfl (by simp [hpc])).1⟩

/-- **The server serves 128 clients and no more**, whether or not they are still
there. With the next one `main` looks for an element forever. -/
theorem threads_used_up (h : (server listenfd).Reachable s) :
    s.created ≤ maxLen ∧ ∀ connfd i, s.created = maxLen → s.main = .search connfd i →
      ∀ s', ((server listenfd).later s).Reachable s' → s'.Searching connfd := by
  have hi := reachable_inv h
  refine ⟨hi.capacity, fun connfd i hcreated hpc s' hlater => ?_⟩
  have hboth : Inv s' ∧ s'.Searching connfd := by
    refine System.later_invariant (I := fun s => Inv s ∧ s.Searching connfd) ?_ ?_ hlater
    · exact ⟨hi, hcreated, .inl ⟨i, hpc⟩, (hi.search connfd i hpc).2.2.2⟩
    · rintro s₁ s₂ ⟨hi₁, hs₁⟩ hst
      refine ⟨step_inv hi₁ hst, ?_⟩
      cases hst with
      | serve h => exact serve_searching hi₁ hs₁ h
      | fail hpc => exact ⟨hs₁.1, .inr trivial, hs₁.2.2⟩
      | client net h => exact hs₁
  exact hboth.2

/-- The clients come one after the other, and each leaves before the next. -/
theorem visits_reachable (n : ℕ) (hn : n ≤ maxLen) :
    ∃ infos threads, (server 3).Reachable
      ⟨⟨fun _ => none, 0⟩, infos, threads, n, .accept⟩ := by
  induction n with
  | zero =>
      exact ⟨fun _ => ⟨none, none⟩, fun _ => none,
        .init ⟨fun _ => rfl, fun _ => rfl, fun _ => rfl, rfl, rfl⟩⟩
  | succ n ih =>
      obtain ⟨infos, threads, h⟩ := ih (by omega)
      have h₁ := client_gets_thread h (by omega) 4
        ⟨by decide, rfl, fun m h h' => by omega⟩ (c := leaving) ⟨rfl, rfl, rfl⟩
      have h₂ := client_leaves h₁ n 4 (Function.update_self ..) (by simp)
        (Function.update_self ..)
      rw [Function.update_idem, Function.update_eq_self (f := fun _ => none) 4] at h₂
      exact ⟨_, _, h₂⟩

/-- 128 clients have come and gone. The next one is accepted and never served. -/
theorem threads_used_up_129 : ∃ s : State, (server 3).Reachable s ∧
    s.net.conns 4 = some (silent 0) ∧ ∀ s', ((server 3).later s).Reachable s' → s'.Searching 4 := by
  obtain ⟨infos, threads, h⟩ := visits_reachable maxLen (le_refl _)
  have h₁ := h.step (.client _ .connect)
  have h₂ : (server 3).Reachable ⟨⟨Function.update (fun _ => none) 4 (some (silent 0)), 0⟩,
      infos, threads, maxLen, .search 4 0⟩ :=
    h₁.step (.serve (.accept rfl one_pos 4 ⟨by decide, rfl, fun m h h' => by omega⟩ (silent 0)
      (silent_fresh 0)))
  exact ⟨_, h₂, rfl, (threads_used_up h₂).2 4 0 rfl rfl⟩

end LinuxServer.ThreadServer
