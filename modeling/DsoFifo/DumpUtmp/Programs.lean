import DsoFifo.Fifo.Pipe

/-!
# Sending a utmp file through the FIFO

`dump_utmp.c` as programs over the driver: `utmp_send` reads the records of a file and writes
them one by one, `utmp_receive` reads records until the end of the stream and prints them.
`next` is the program text, as a function of what the program sees of its calls.

A program's memory is its own, so that copies from and to it never fall short; a program that
leaves with `exit` while the FIFO is open has it closed by the kernel.  How a record is printed
does not matter here, and neither does a program that fails before it opens the FIFO.

`Moves` lists what a program and its call can do next at the pipe; it is what everything about
the programs is proved from.
-/

namespace DsoFifo.DumpUtmp

open DsoFifo.C DsoFifo.Fifo DsoFifo.LTS Function

variable {ι φ : Type}

/-! ## The file -/

/-- `num_registers` of `read_utmp`, where `size` is `sizeof(struct utmp)`; the division is of
`unsigned int`s, since `size_t` has 32 bits. -/
def numRegisters (size : ℕ) (stSize : ℤ) : ℤ := toInt (toUnsigned (toInt stSize) / size : ℕ)

/-- `utmpv` after the `fread`, which finds all the registers it asks for, by
`numRegisters_mul_le`. -/
def readUtmp (size : ℕ) (fichero : List Byte) : List (List Byte) :=
  (List.range (numRegisters size fichero.length).toNat).map fun i ↦
    (fichero.drop (i * size)).take size

/-- The registers are in the file. -/
theorem numRegisters_mul_le (size n : ℕ) : (numRegisters size n).toNat * size ≤ n := by
  have hunsigned : toUnsigned (toInt n) ≤ n := by
    unfold toUnsigned toInt
    omega
  have hint (q : ℕ) : (toInt q).toNat ≤ q := by
    unfold toInt
    omega
  calc (numRegisters size n).toNat * size
    _ ≤ toUnsigned (toInt n) / size * size := Nat.mul_le_mul_right _ (hint _)
    _ ≤ toUnsigned (toInt n) := Nat.div_mul_le_self _ _
    _ ≤ n := hunsigned

/-- All the records are whole. -/
theorem length_of_mem_readUtmp {size : ℕ} {fichero r : List Byte}
    (hr : r ∈ readUtmp size fichero) : r.length = size := by
  obtain ⟨i, hi, rfl⟩ := List.mem_map.mp hr
  have hle : (i + 1) * size ≤ fichero.length :=
    (Nat.mul_le_mul_right _ (List.mem_range.mp hi)).trans (numRegisters_mul_le ..)
  rw [Nat.succ_mul] at hle
  rw [List.length_take, List.length_drop]
  omega

/-- **A file of less than 2 GiB is read whole**, but for what is behind the last register. -/
theorem flatten_readUtmp {size : ℕ} {fichero : List Byte} (h : fichero.length < 2147483648) :
    (readUtmp size fichero).flatten = fichero.take (fichero.length / size * size) := by
  have hchunks (n : ℕ) : ((List.range n).map fun i ↦ (fichero.drop (i * size)).take size).flatten =
      fichero.take (n * size) := by
    induction n with
    | zero => simp
    | succ n ih =>
        rw [List.range_succ, List.map_append, List.flatten_append, ih, Nat.succ_mul, List.take_add]
        simp
  have hregisters : (numRegisters size fichero.length).toNat = fichero.length / size := by
    have hle := Nat.div_le_self fichero.length size
    rw [numRegisters, toInt_natCast h, toUnsigned_natCast (by omega), toInt_natCast (by omega),
      Int.toNat_natCast]
  rw [readUtmp, hregisters, hchunks]

/-! ## The programs -/

/-- What a program uses the FIFO for. -/
inductive Job where
  | /-- `utmp_send`, of these records. -/ send (utmpBuf : List (List Byte))
  | /-- `utmp_receive`; `received` is what its variable is before it is read into. -/
    receive (received : List Byte)
deriving DecidableEq

/-- The side that the FIFO is opened on. -/
def Job.side : Job → Side
  | .send _ => .prod
  | .receive _ => .cons

/-- A point of a program, with its variables: `h` is the file of `fd_fifo`, `rest` the records
that are still to be sent, `printed` those that have been printed. -/
inductive Program (φ : Type) where
  | /-- Does not use the FIFO. -/ other
  -- both functions
  | /-- In front of `open`. -/ start (h : φ) (j : Job)
  | /-- In `open`. -/ opening (h : φ) (j : Job)
  | /-- In front of `close`, or of the `close` that `exit` does. -/
    close (h : φ) (m : Side) (status : ℕ) (printed : List (List Byte))
  | closing (m : Side) (status : ℕ) (printed : List (List Byte))
  | exited (m : Side) (status : ℕ) (printed : List (List Byte))
  -- `utmp_send`
  | /-- At the head of the loop. -/ sendLoop (h : φ) (rest : List (List Byte))
  | /-- In `write`. -/ write (h : φ) (cur : List Byte) (rest : List (List Byte))
  -- `utmp_receive`
  | /-- In front of `read`. -/
    receiveLoop (h : φ) (received : List Byte) (printed : List (List Byte))
  | /-- In `read`. -/ read (h : φ) (received : List Byte) (printed : List (List Byte))
deriving DecidableEq

/-- Behind `open`. -/
def Job.begin (h : φ) : Job → Program φ
  | .send utmpBuf => .sendLoop h utmpBuf
  | .receive received => .receiveLoop h received []

section

variable [DecidableEq φ]

/-- What a program does when it sees an event, where `size` is `sizeof(struct utmp)`. -/
def next (size : ℕ) : Program φ → Event φ → Option (Program φ)
  | .start h j, .call c => if c = .fifoOpen h j.side then some (.opening h j) else none
  | .opening h j, .ret _ fdFifo =>
    if fdFifo < 0 then some (.exited j.side 1 []) else some (j.begin h)
  | .sendLoop h (cur :: rest), .call c =>
    if c = .fifoWrite h cur then some (.write h cur rest) else none
  | .sendLoop h [], .call c => if c = .fifoRelease h then some (.closing .prod 0 []) else none
  | .write h cur rest, .copyIn xs => if xs = cur then some (.write h cur rest) else none
  | .write h _ rest, .ret _ bytes =>
    if bytes > 0 ∧ bytes ≠ size then some (.close h .prod 1 [])
    else if bytes < 0 then some (.close h .prod 1 [])
    else some (.sendLoop h rest)
  | .receiveLoop h received printed, .call c =>
    if c = .fifoRead h size then some (.read h received printed) else none
  | .read h _ printed, .copyOut xs =>
    if xs.length = size then some (.read h xs printed) else none
  | .read h received printed, .ret _ bytes =>
    if bytes = size then some (.receiveLoop h received (printed ++ [received]))
    else if bytes > 0 then some (.close h .cons 1 printed)
    else if bytes < 0 then some (.close h .cons 1 printed)
    else some (.close h .cons 0 printed)
  | .close h m status printed, .call c =>
    if c = .fifoRelease h then some (.closing m status printed) else none
  | .closing m status printed, .ret _ _ => some (.exited m status printed)
  | _, _ => none

end

/-- The file of a program that uses the FIFO. -/
def Program.file : Program φ → Option φ
  | .start h _ | .opening h _ | .close h _ _ _ | .sendLoop h _ | .write h _ _
  | .receiveLoop h _ _ | .read h _ _ => some h
  | .other | .closing _ _ _ | .exited _ _ _ => none

/-! ## A program and its call -/

/-- All the records are whole. -/
abbrev Sized (size : ℕ) (rs : List (List Byte)) : Prop := ∀ r ∈ rs, r.length = size

/-- A file of whole records is sent. -/
def Job.Sized (size : ℕ) : Job → Prop
  | .send utmpBuf => DumpUtmp.Sized size utmpBuf
  | .receive _ => True

/-- Where a program can be, with its call, when these files are open. -/
inductive At (size : ℕ) (files : φ → Option Side) : Program φ → Phase φ → Prop
  | other : At size files .other .idle
  | start {h : φ} {j : Job} : j.Sized size → files h = none → At size files (.start h j) .idle
  | opening {h : φ} {j : Job} : j.Sized size → At size files (.opening h j) (.opening h j.side)
  | attached {h : φ} {j : Job} : j.Sized size → At size files (.opening h j) (.attached h j.side)
  | opened {h : φ} {j : Job} : j.Sized size → At size files (.opening h j) (.opened h j.side)
  | failed {h : φ} {j : Job} {f : Fn} {v : ℤ} : v < 0 →
      At size files (.opening h j) (.returning f v)
  | sendLoop {h : φ} {rest : List (List Byte)} : Sized size rest → files h = some .prod →
      At size files (.sendLoop h rest) .idle
  | writing {h : φ} {cur : List Byte} {rest : List (List Byte)} : Sized size (cur :: rest) →
      files h = some .prod → At size files (.write h cur rest) (.writing cur)
  | ready {h : φ} {cur : List Byte} {rest : List (List Byte)} : Sized size (cur :: rest) →
      files h = some .prod → At size files (.write h cur rest) (.ready cur)
  | wrote {h : φ} {cur : List Byte} {rest : List (List Byte)} {f : Fn} {v : ℤ} :
      Sized size rest → files h = some .prod → v = size ∨ v < 0 →
      At size files (.write h cur rest) (.returning f v)
  | receiveLoop {h : φ} {received : List Byte} {printed : List (List Byte)} :
      files h = some .cons → At size files (.receiveLoop h received printed) .idle
  | reading {h : φ} {received : List Byte} {printed : List (List Byte)} :
      files h = some .cons → At size files (.read h received printed) (.reading size)
  | fetched {h : φ} {received xs : List Byte} {printed : List (List Byte)} :
      files h = some .cons → xs.length = size →
      At size files (.read h received printed) (.fetched xs)
  | haveRead {h : φ} {received : List Byte} {printed : List (List Byte)} {f : Fn} {v : ℤ} :
      files h = some .cons → v = size ∨ v ≤ 0 →
      At size files (.read h received printed) (.returning f v)
  | close {h : φ} {m : Side} {status : ℕ} {printed : List (List Byte)} : files h = some m →
      At size files (.close h m status printed) .idle
  | releasing {m : Side} {status : ℕ} {printed : List (List Byte)} :
      At size files (.closing m status printed) (.releasing m)
  | released {m : Side} {status : ℕ} {printed : List (List Byte)} {f : Fn} {v : ℤ} :
      At size files (.closing m status printed) (.returning f v)
  | exited {m : Side} {status : ℕ} {printed : List (List Byte)} :
      At size files (.exited m status printed) .idle

variable [DecidableEq φ]

/-- What a program and its call can do next at the pipe. -/
inductive Moves (size : ℕ) (w : Pipe φ) :
    Program φ × Phase φ → Pipe φ → Program φ × Phase φ → Prop
  -- the open
  | callOpen {h : φ} {j : Job} :
      Moves size w (.start h j, .idle) w (.opening h j, .opening h j.side)
  | attach {h : φ} {j : Job} : Moves size w (.opening h j, .opening h j.side)
      (w.attach j.side) (.opening h j, .attached h j.side)
  | meet {h : φ} {j : Job} : w.ends j.side.other ≠ 0 →
      Moves size w (.opening h j, .attached h j.side) w (.opening h j, .opened h j.side)
  | giveUp {h : φ} {j : Job} {f : Fn} {v : ℤ} : w.ends j.side ≠ 0 → v < 0 →
      Moves size w (.opening h j, .attached h j.side)
        (w.withdraw j.side) (.opening h j, .returning f v)
  | refuse {h : φ} {j : Job} {f : Fn} {v : ℤ} : v < 0 →
      Moves size w (.opening h j, .opening h j.side) w (.opening h j, .returning f v)
  | opened {h : φ} {j : Job} : Moves size w (.opening h j, .opened h j.side)
      { w with files := update w.files h (some j.side) } (j.begin h, .idle)
  | fail {h : φ} {j : Job} {f : Fn} {v : ℤ} :
      Moves size w (.opening h j, .returning f v) w (.exited j.side 1 [], .idle)
  -- the loop of `utmp_send`
  | callWrite {h : φ} {cur : List Byte} {rest : List (List Byte)} :
      Moves size w (.sendLoop h (cur :: rest), .idle) w (.write h cur rest, .writing cur)
  | copyIn {h : φ} {cur : List Byte} {rest : List (List Byte)} :
      Moves size w (.write h cur rest, .writing cur) w (.write h cur rest, .ready cur)
  | store {h : φ} {cur : List Byte} {rest : List (List Byte)} : w.ends .cons ≠ 0 →
      cur.length = size → Moves size w (.write h cur rest, .ready cur)
        { w with content := w.content ++ cur } (.write h cur rest, .returning .fifoWrite size)
  | writeFail {h : φ} {cur : List Byte} {rest : List (List Byte)} {ph : Phase φ} {f : Fn} {v : ℤ} :
      ph = .writing cur ∨ ph = .ready cur → v < 0 →
      Moves size w (.write h cur rest, ph) w (.write h cur rest, .returning f v)
  | wrote {h : φ} {cur : List Byte} {rest : List (List Byte)} {f : Fn} :
      Moves size w (.write h cur rest, .returning f size) w (.sendLoop h rest, .idle)
  | writeExit {h : φ} {cur : List Byte} {rest : List (List Byte)} {f : Fn} {v : ℤ} : v < 0 →
      Moves size w (.write h cur rest, .returning f v) w (.close h .prod 1 [], .idle)
  | sendEnd {h : φ} : Moves size w (.sendLoop h [], .idle)
      { w with files := update w.files h none } (.closing .prod 0 [], .releasing .prod)
  -- the loop of `utmp_receive`
  | callRead {h : φ} {received : List Byte} {printed : List (List Byte)} :
      Moves size w (.receiveLoop h received printed, .idle) w
        (.read h received printed, .reading size)
  | eof {h : φ} {received : List Byte} {printed : List (List Byte)} : w.ends .prod = 0 →
      w.content = [] → Moves size w (.read h received printed, .reading size) w
        (.read h received printed, .returning .fifoRead 0)
  | fetch {h : φ} {received xs rest : List Byte} {printed : List (List Byte)} :
      w.content = xs ++ rest → xs.length = size →
      Moves size w (.read h received printed, .reading size) { w with content := rest }
        (.read h received printed, .fetched xs)
  | copyOut {h : φ} {received xs : List Byte} {printed : List (List Byte)} : xs.length = size →
      Moves size w (.read h received printed, .fetched xs) w
        (.read h xs printed, .returning .fifoRead size)
  | readFail {h : φ} {received : List Byte} {printed : List (List Byte)} {f : Fn} {v : ℤ} : v < 0 →
      Moves size w (.read h received printed, .reading size) w
        (.read h received printed, .returning f v)
  | haveRead {h : φ} {received : List Byte} {printed : List (List Byte)} {f : Fn} :
      Moves size w (.read h received printed, .returning f size) w
        (.receiveLoop h received (printed ++ [received]), .idle)
  | readEnd {h : φ} {received : List Byte} {printed : List (List Byte)} {f : Fn} :
      Moves size w (.read h received printed, .returning f 0) w (.close h .cons 0 printed, .idle)
  | readExit {h : φ} {received : List Byte} {printed : List (List Byte)} {f : Fn} {v : ℤ} : v < 0 →
      Moves size w (.read h received printed, .returning f v) w (.close h .cons 1 printed, .idle)
  -- the end
  | close {h : φ} {m : Side} {status : ℕ} {printed : List (List Byte)} :
      Moves size w (.close h m status printed, .idle)
        { w with files := update w.files h none } (.closing m status printed, .releasing m)
  | detach {m : Side} {status : ℕ} {printed : List (List Byte)} {f : Fn} {v : ℤ} : w.ends m ≠ 0 →
      Moves size w (.closing m status printed, .releasing m) (w.detach m)
        (.closing m status printed, .returning f v)
  | leak {m : Side} {status : ℕ} {printed : List (List Byte)} {f : Fn} {v : ℤ} :
      Moves size w (.closing m status printed, .releasing m) w
        (.closing m status printed, .returning f v)
  | exit {m : Side} {status : ℕ} {printed : List (List Byte)} {f : Fn} {v : ℤ} :
      Moves size w (.closing m status printed, .returning f v) w
        (.exited m status printed, .idle)

omit [DecidableEq φ] in
/-- A call that is refused returns an error. -/
theorem neg_of_refuses {ph : Phase φ} {f : Fn} {v : ℤ} (h : ph.Refuses f v) : v < 0 := by
  cases h <;> decide

/-- **The list is complete.** -/
theorem moves_of_acts {size : ℕ} (hsize : 0 < size) {w w' : Pipe φ} {ph ph' : Phase φ}
    {k k' : Program φ} {o : Option (Event φ)} (hat : At size w.files k ph)
    (hacts : Acts (w, ph) o (w', ph'))
    (hnext : o.elim (k = k') fun e ↦ next size k e = some k') :
    Moves size w (k, ph) w' (k', ph') := by
  cases hat with
  | other =>
      cases hacts with
      | refuse _ href => cases href
      | _ => cases hnext
  | start hj hfile =>
      cases hacts with
      | refuse _ href => cases href
      | callOpen =>
          obtain ⟨hc, hk⟩ := Option.ite_none_right_eq_some.mp hnext
          cases hc
          cases hk
          exact .callOpen
      | _ => cases hnext
  | opening hj =>
      cases hacts with
      | refuse _ href =>
          cases hnext
          exact .refuse (neg_of_refuses href)
      | attach => cases hnext; exact .attach
  | attached hj =>
      cases hacts with
      | refuse _ href => cases href
      | meet _ hends => cases hnext; exact .meet hends
      | giveUp _ hends => cases hnext; exact .giveUp hends (by decide)
  | opened hj =>
      cases hacts with
      | refuse _ href => cases href
      | retOpen =>
          simp [next] at hnext
          subst hnext
          exact .opened
  | failed hv =>
      cases hacts with
      | refuse _ href => cases href
      | ret =>
          simp [next, hv] at hnext
          subst hnext
          exact .fail
  | @sendLoop _ rest hrest hfile =>
      cases rest with
      | nil =>
          cases hacts with
          | refuse _ href => cases href
          | callRelease hfile' =>
              obtain ⟨hc, hk⟩ := Option.ite_none_right_eq_some.mp hnext
              cases hc
              cases hk
              obtain rfl := Option.some.inj (hfile.symm.trans hfile')
              exact .sendEnd
          | _ => cases hnext
      | cons cur rest =>
          cases hacts with
          | refuse _ href => cases href
          | callWrite =>
              obtain ⟨hc, hk⟩ := Option.ite_none_right_eq_some.mp hnext
              cases hc
              cases hk
              exact .callWrite
          | _ => cases hnext
  | @writing _ cur rest hrest hfile =>
      cases hacts with
      | refuse _ href =>
          cases hnext
          exact .writeFail (.inl rfl) (neg_of_refuses href)
      | copyIn =>
          obtain ⟨rfl, hk⟩ := Option.ite_none_right_eq_some.mp hnext
          cases hk
          exact .copyIn
  | @ready _ cur rest hrest hfile =>
      have hcur : cur.length = size := hrest cur List.mem_cons_self
      cases hacts with
      | refuse _ href =>
          cases hnext
          exact .writeFail (.inr rfl) (neg_of_refuses href)
      | store hends =>
          cases hnext
          rw [hcur]
          exact .store hends hcur
      | epipe =>
          cases hnext
          exact .writeFail (.inr rfl) (by decide)
  | wrote hrest hfile hv =>
      cases hacts with
      | refuse _ href => cases href
      | ret =>
          rcases hv with rfl | hv
          · have hnn : ¬(size : ℤ) < 0 := by omega
            simp [next, hnn] at hnext
            subst hnext
            exact .wrote
          · simp [next, hv] at hnext
            subst hnext
            exact .writeExit hv
  | receiveLoop hfile =>
      cases hacts with
      | refuse _ href => cases href
      | callRead =>
          obtain ⟨hc, hk⟩ := Option.ite_none_right_eq_some.mp hnext
          cases hc
          cases hk
          exact .callRead
      | _ => cases hnext
  | reading hfile =>
      cases hacts with
      | refuse _ href =>
          cases hnext
          exact .readFail (neg_of_refuses href)
      | eof _ hends hcontent => cases hnext; exact .eof hends hcontent
      | fetch _ hcontent => cases hnext; exact .fetch hcontent rfl
  | fetched hfile hxs =>
      cases hacts with
      | refuse _ href => cases href
      | copyOut _ hys =>
          obtain ⟨hlen, hk⟩ := Option.ite_none_right_eq_some.mp hnext
          cases hk
          obtain rfl := hys.eq_of_length (hlen.trans hxs.symm)
          rw [hlen]
          exact .copyOut hlen
  | @haveRead _ _ _ _ v hfile hv =>
      cases hacts with
      | refuse _ href => cases href
      | ret =>
          rcases hv with rfl | hv
          · simp [next] at hnext
            subst hnext
            exact .haveRead
          · have hne : v ≠ size := by omega
            rcases hv.lt_or_eq with hlt | rfl
            · simp [next, hne, hlt.not_gt, hlt] at hnext
              subst hnext
              exact .readExit hlt
            · simp [next, hne] at hnext
              subst hnext
              exact .readEnd
  | close hfile =>
      cases hacts with
      | refuse _ href => cases href
      | callRelease hfile' =>
          obtain ⟨hc, hk⟩ := Option.ite_none_right_eq_some.mp hnext
          cases hc
          cases hk
          obtain rfl := Option.some.inj (hfile.symm.trans hfile')
          exact .close
      | _ => cases hnext
  | releasing =>
      cases hacts with
      | refuse => cases hnext; exact .leak
      | detach hends => cases hnext; exact .detach hends
  | released =>
      cases hacts with
      | refuse _ href => cases href
      | ret =>
          cases hnext
          exact .exit
  | exited =>
      cases hacts with
      | refuse _ href => cases href
      | _ => cases hnext

end DsoFifo.DumpUtmp
