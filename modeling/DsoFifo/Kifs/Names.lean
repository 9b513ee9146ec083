import DsoFifo.Kifs.Dispatch

/-!
# Names that cannot be read

`sys_kifs` does not look at what `strncpy_from_user` returns.  Its buffer is zeroed before, so
when the user's memory ends within the name, what has been copied is looked up as if it were
the whole name.

`sysKifsCall` is what the steps of `sys_kifs` come to when nobody disturbs them
(`path_sysKifsCall`), and `unreadable_name_iff` says which parts of a name select no entry.
-/

namespace DsoFifo.Kifs

open DsoFifo.C DsoFifo.LTS DsoFifo.BoundedMap Function

variable {ι ρ ω δ : Type}

/-- `sys_kifs` on a registry that does not change in the meantime: what it returns, or the
callback that it calls. -/
def sysKifsCall (s : Registry ρ ω δ) (a : Args) : Option (Event ρ ω δ) :=
  (lookupKifs s a.entryName).map fun
    | some e =>
      match opOf a.opMode with
      | some op =>
        if ((s.binding e).callback op).isNone then .ret (-eperm)
        else .invoke a ((s.binding e).callback op) (s.binding e).data
      | none => .ret (-einval)
    | none => .ret (-einval)

/-! ## One call, step by step -/

section

variable [DecidableEq ι] {c : Builtin ρ ω}

/-- The steps of one process, while nothing else happens. -/
theorem exists_path_of_execute {s : State ι ρ ω δ} {p : ι} {acts : List Act} {pc : Pc ρ ω δ}
    {evss : List (List (Event ρ ω δ))}
    (h : execute (fun pc a ↦ pc.run s.reg a) (s.pc p) acts = some (pc, evss)) :
    ∃ tr, (sysKifs ι δ c).Path anyStep s tr { s with pc := update s.pc p pc } ∧
      tr.map Io.input = acts.map (.act p) ∧ tr.flatMap Io.output = evss.flatten := by
  induction acts generalizing s evss with
  | nil =>
      obtain ⟨rfl, rfl⟩ := Prod.mk.inj (Option.some.inj h)
      refine ⟨[], ?_, rfl, rfl⟩
      rw [update_eq_self]
      exact .nil
  | cons act acts ih =>
      simp only [execute, Option.bind_eq_some_iff, Option.map_eq_some_iff] at h
      obtain ⟨⟨pc₁, evs⟩, hrun, ⟨pc', evss'⟩, hrest, heq⟩ := h
      obtain ⟨rfl, rfl⟩ := Prod.mk.inj heq
      have hst : (sysKifs ι δ c).Step s ⟨.act p act, evs⟩ { s with pc := update s.pc p pc₁ } := by
        change step s (.act p act) = _
        rw [step, hrun]
        rfl
      have hrest' : execute (fun pc a ↦ pc.run s.reg a) (update s.pc p pc₁ p) acts =
          some (pc', evss') := by rwa [update_self]
      obtain ⟨tr, hpath, hin, hout⟩ := ih (s := { s with pc := update s.pc p pc₁ }) hrest'
      refine ⟨[⟨.act p act, evs⟩] ++ tr, ?_, by simp [hin], by simp [hout]⟩
      rw [update_idem] at hpath
      exact (Path.single trivial hst).append hpath

/-- **An undisturbed call** does what `sysKifsCall` says. -/
theorem path_sysKifsCall {s : State ι ρ ω δ} {p : ι} {a : Args} {ev : Event ρ ω δ}
    (hp : s.pc p = .search a) (h : sysKifsCall s.reg a = some ev) :
    ∃ (acts : List Act) (tr : List (Label ι ρ ω δ)),
      (sysKifs ι δ c).Path anyStep s tr { s with pc := update s.pc p .idle } ∧
      tr.map Io.input = acts.map (.act p) ∧ tr.flatMap Io.output = [ev] := by
  obtain ⟨acts, evss, hexec, hev⟩ : ∃ (acts : List Act) (evss : List (List (Event ρ ω δ))),
      execute (fun pc a ↦ pc.run s.reg a) (s.pc p) acts = some (.idle, evss) ∧
        evss.flatten = [ev] := by
    obtain ⟨r, hlookup, rfl⟩ := Option.map_eq_some_iff.mp h
    rw [hp]
    cases r with
    | none =>
        have hnone : (Pc.search a).run s.reg .go = some (.idle, [.ret (-einval)]) := by
          rw [Pc.run, hlookup, Option.map_some]
        exact ⟨[.go], _, execute_cons hnone rfl, rfl⟩
    | some e =>
        have hfound : (Pc.search a).run s.reg .go = some (.select a e, []) := by
          rw [Pc.run, hlookup, Option.map_some]
        cases hop : opOf a.opMode with
        | none =>
            have hsel : (Pc.select a e).run s.reg .go = some (.idle, [.ret (-einval)]) := by
              simp only [Pc.run, hop]
            exact ⟨[.go, .go], _, execute_cons hfound (execute_cons hsel rfl), rfl⟩
        | some op =>
            cases hcall : (s.reg.binding e).callback op with
            | none =>
                have hsel : (Pc.select a e).run s.reg .go = some (.idle, [.ret (-eperm)]) := by
                  simp only [Pc.run, hop, hcall, Option.isNone_none, if_true]
                refine ⟨[.go, .go], _, execute_cons hfound (execute_cons hsel rfl), ?_⟩
                simp [hcall]
            | some f =>
                have hsel : (Pc.select a e).run s.reg .go =
                    some (.load a op e none none, []) := by
                  simp only [Pc.run, hop, hcall, Option.isNone_some, Bool.false_eq_true, if_false]
                refine ⟨[.go, .go, .loadCallback, .loadData, .go], _,
                  execute_cons hfound (execute_cons hsel (execute_cons rfl (execute_cons rfl
                    (execute_cons rfl rfl)))), ?_⟩
                simp [hcall]
  obtain ⟨tr, hpath, hin, hout⟩ := exists_path_of_execute (c := c) hexec
  exact ⟨acts, tr, hpath, hin, hout.trans hev⟩

end

/-! ## Which parts select no entry -/

variable {s : Registry ρ ω δ} {a : Args}

/-- What cannot be read of a name makes no difference: it is looked up as it is. -/
theorem cut_of_unreadable {xs : List Byte} (hlen : xs.length < maxKifsEntryNameSize)
    (hnul : 0 ∉ xs) : cut maxKifsEntryNameSize xs = xs := by
  rw [cut, List.take_of_length_le hlen.le, List.takeWhile_eq_self_iff]
  intro x hx
  exact decide_eq_true fun hz ↦ hnul (hz ▸ hx)

/-- A call fails without a callback when its name selects nothing, or nothing that can be
called. -/
theorem Sound.sysKifsCall_iff (hs : Sound s) :
    (∃ v, v < 0 ∧ sysKifsCall s a = some (.ret v)) ↔
      ∀ e ∈ s.entryList, s.key e = cut maxKifsEntryNameSize a.entryName →
        ∀ op, opOf a.opMode = some op → (s.binding e).callback op = none := by
  unfold sysKifsCall
  rw [hs.lookupKifs_eq, Option.map_some]
  cases hf : s.entryList.find? fun e ↦ s.key e = cut maxKifsEntryNameSize a.entryName with
  | none =>
      refine iff_of_true ⟨-einval, by decide, rfl⟩ fun e he hkey ↦ ?_
      exact absurd hkey (by simpa using List.find?_eq_none.mp hf e he)
  | some e =>
      have he := List.mem_of_find?_eq_some hf
      have hkey : s.key e = cut maxKifsEntryNameSize a.entryName := by
        simpa using List.find?_some hf
      -- there is no other entry with this name
      have huniq : ∀ e' ∈ s.entryList, s.key e' = cut maxKifsEntryNameSize a.entryName → e' = e :=
        fun e' he' hkey' ↦ List.inj_on_of_nodup_map hs.nodup_key he' he (hkey'.trans hkey.symm)
      cases hop : opOf a.opMode with
      | none => exact iff_of_true ⟨-einval, by decide, rfl⟩ fun _ _ _ _ hop' ↦ (by cases hop')
      | some op =>
          dsimp only
          cases hcall : (s.binding e).callback op with
          | none =>
              refine iff_of_true ⟨-eperm, by decide, rfl⟩ ?_
              rintro e' he' hkey' _ ⟨⟩
              rwa [huniq e' he' hkey']
          | some f =>
              refine iff_of_false (fun ⟨v, _, hv⟩ ↦ ?_) fun h ↦ ?_
              · cases hv
              · rw [h e he hkey op rfl] at hcall
                cases hcall

/-- **When a name that cannot be read selects no entry.**  After `init_kifs_entry_set` and any
sequence of calls, a `sys_kifs` of whose name only these bytes can be read, fewer than 50 and
no NUL, fails without calling anything if and only if no entry has them for its name, or it
cannot do the operation. -/
theorem unreadable_name_iff (c : Builtin ρ ω) (calls : List (Call ρ ω δ)) {a : Args}
    (hlen : a.entryName.length < maxKifsEntryNameSize) (hnul : 0 ∉ a.entryName) :
    ∃ s₀ s os, initKifsEntrySet c = some s₀ ∧ execute Call.run s₀ calls = some (s, os) ∧
      ((∃ v, v < 0 ∧ sysKifsCall s a = some (.ret v)) ↔
        ∀ e ∈ s.entryList, s.key e = a.entryName →
          ∀ op, opOf a.opMode = some op → (s.binding e).callback op = none) := by
  obtain ⟨s₀, hinit, h₀⟩ : ∃ s : Registry ρ ω δ, _ ∧ Holds s _ := exists_holds_init c
  obtain ⟨s, hrun, h⟩ := lockstep_holds.execute_eq h₀ calls
  refine ⟨s₀, s, _, hinit, hrun, ?_⟩
  rw [h.sound.sysKifsCall_iff, cut_of_unreadable hlen hnul]

/-- The first three letters of `clipboard`. -/
theorem unreadable_name_iff_cli :
    let a : Args := ⟨ascii ['c', 'l', 'i'], 1, 0, 3⟩
    ∃ s₀ s os, initKifsEntrySet numbered = some s₀ ∧
      execute Call.run s₀ ([] : List (Call ℕ ℕ ℕ)) = some (s, os) ∧
      ((∃ v, v < 0 ∧ sysKifsCall s a = some (.ret v)) ↔
        ∀ e ∈ s.entryList, s.key e = a.entryName →
          ∀ op, opOf a.opMode = some op → (s.binding e).callback op = none) :=
  unreadable_name_iff numbered [] (by decide) (by decide)

/-- **A name that cannot be read is found**: of `clipboardX` all but the last letter can be
read, and the clipboard is written. -/
theorem exists_unreadable_name_found :
    ((initKifsEntrySet numbered : Option (Registry ℕ ℕ ℕ)).bind fun s ↦
      sysKifsCall s ⟨clipboardName.bytes, 1, 0, 3⟩) =
        some (.invoke ⟨clipboardName.bytes, 1, 0, 3⟩ (some (.inr 3)) none) ∧
      clipboardName.bytes.length < maxKifsEntryNameSize ∧ 0 ∉ clipboardName.bytes := by
  decide +kernel

end DsoFifo.Kifs
