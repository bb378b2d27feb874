import Lockstep.Proofs.Ownership

/-!
# What shows of a prepared write

The value a transaction is going to write does not show before it is committed. Two runs that
differ only in the values that preparations of one transaction name get the same answers and leave
the same state, but for the writes that wait in this transaction's locks
(`pending_writes_invisible`).

To redact is to blot these values out, in commands and in locks. No command but a commit looks at
them, so a redacted command does to a redacted state what the command does to the state
(`execute_redact`), and the runs agree because they are the same once redacted.
-/

namespace Lockstep

def PendingWrite.redact : PendingWrite → PendingWrite
  | put _ => put ⟨[]⟩
  | tombstone => tombstone

/-- The kind without the value it would write. What its condition asks for stays. -/
def UpdateKind.redact : UpdateKind → UpdateKind
  | put _ => put ⟨[]⟩
  | putIfAbsent _ => putIfAbsent ⟨[]⟩
  | putIfVersion _ version => putIfVersion ⟨[]⟩ version
  | putIfValue _ current => putIfValue ⟨[]⟩ current
  | kind => kind

def Update.redact (u : Update) : Update := { u with kind := u.kind.redact }

/-- The transaction without the values it would write, if it is the one with this id. -/
def Transaction.redact (id : UInt64) (txn : Transaction) : Transaction :=
  if txn.id = id then { txn with updates := txn.updates.map Update.redact } else txn

/-- The command without the values it would have wait for the transaction with this id. -/
def Command.redact (id : UInt64) : Command → Command
  | prepare txn => prepare (txn.redact id)
  | c => c

/-- The transaction whose waiting writes the command may make. -/
def Command.commits? : Command → Option Transaction
  | commit txn | prepareAndCommit txn => some txn
  | _ => none

def Lock.redact (id : UInt64) (lock : Lock) : Lock :=
  if lock.owner = id then { lock with pending := lock.pending.redact } else lock

def Locks.redact (id : UInt64) (l : Locks) : Locks :=
  { l with tables := l.tables.map fun keys => keys.map (Lock.redact id) }

def State.redact (id : UInt64) (s : State) : State := { s with locks := s.locks.redact id }

variable {id : UInt64}

namespace UpdateKind

@[simp] theorem holds_redact (kind : UpdateKind) : kind.redact.holds = kind.holds := by
  funext entry
  cases kind <;> rfl

@[simp] theorem pending_redact (kind : UpdateKind) : kind.redact.pending = kind.pending.redact := by
  cases kind <;> rfl

end UpdateKind

namespace Lock

@[simp] theorem owner_redact (lock : Lock) : (lock.redact id).owner = lock.owner := by
  unfold redact
  split <;> rfl

theorem redact_of_ne {lock : Lock} (h : lock.owner ≠ id) : lock.redact id = lock := if_neg h

/-- Locks that are alike once redacted are the same, or both wait to put a value for the
transaction. -/
theorem eq_or_put_of_redact {lock lock' : Lock} (h : lock.redact id = lock'.redact id) :
    lock = lock' ∨ ∃ v v', lock = ⟨id, .put v⟩ ∧ lock' = ⟨id, .put v'⟩ := by
  have howner := congrArg owner h
  rw [owner_redact, owner_redact] at howner
  by_cases hid : lock.owner = id
  · obtain ⟨owner, w⟩ := lock
    obtain ⟨owner', w'⟩ := lock'
    cases howner
    cases hid
    simp only [redact, if_true, mk.injEq, true_and] at h
    cases w <;> cases w' <;> simp [PendingWrite.redact] at h ⊢
  · left
    rwa [redact_of_ne hid, redact_of_ne (howner ▸ hid)] at h

end Lock

namespace Locks

variable (l : Locks) (t k : String)

@[simp] theorem table_redact : (l.redact id).table t = (l.table t).map (Lock.redact id) := by
  simp only [table, redact, OrdMap.get?_map]
  cases l.tables.get? t <;> rfl

@[simp] theorem get?_redact : (l.redact id).get? t k = (l.get? t k).map (Lock.redact id) := by
  rw [get?, table_redact, OrdMap.get?_map, get?]

@[simp] theorem isLocked_redact : (l.redact id).isLocked t k = l.isLocked t k := by
  rw [isLocked, get?_redact, Option.isSome_map, isLocked]

@[simp] theorem isLockedByAnother_redact (id' : UInt64) :
    (l.redact id).isLockedByAnother t k id' = l.isLockedByAnother t k id' := by
  rw [isLockedByAnother, get?_redact, isLockedByAnother]
  cases l.get? t k <;> simp

@[simp] theorem hasLocks_redact : (l.redact id).hasLocks t = l.hasLocks t := by
  simp only [hasLocks, redact, OrdMap.contains, OrdMap.get?_map, Option.isSome_map]

@[simp] theorem lockedKeys_redact : (l.redact id).lockedKeys t = l.lockedKeys t := by
  rw [lockedKeys, table_redact, OrdMap.keySet_map, lockedKeys]

@[simp] theorem owners_redact : (l.redact id).owners = l.owners := by
  simp only [owners, redact, OrdMap.values_map, List.flatMap_map, List.map_map, Function.comp_def,
    Lock.owner_redact]

@[simp] theorem holder?_redact (p : Place) : (l.redact id).holder? p = l.holder? p := by
  rw [holder?, get?_redact, Option.map_map, holder?]
  exact congrArg (Option.map · _) (funext Lock.owner_redact)

@[simp] theorem count_redact : (l.redact id).count = l.count := rfl

variable {l t k}

theorem lock_redact {id' : UInt64} {w w' : PendingWrite}
    (h : (⟨id', w⟩ : Lock).redact id = ⟨id', w'⟩) :
    (l.redact id).lock t k id' w' = (l.lock t k id' w).redact id := by
  rw [lock, lock, isLocked_redact, table_redact, redact, redact, OrdMap.map_insert,
    OrdMap.map_insert, h]

theorem unlock_redact : (l.redact id).unlock t k = (l.unlock t k).redact id := by
  rw [unlock, unlock, table_redact, redact, redact, ← OrdMap.map_erase, OrdMap.isEmpty_map]
  split
  · rw [OrdMap.map_erase]
  · rw [OrdMap.map_insert]

theorem release?_redact (id' : UInt64) : (l.redact id).release? t k id'
    = (l.release? t k id').map fun r =>
        (((⟨id', r.1⟩ : Lock).redact id).pending, r.2.redact id) := by
  by_cases h : l.Holds id' (t, k)
  · obtain ⟨w, hw⟩ := h
    have hw' : (l.redact id).get? t k = some ⟨id', ((⟨id', w⟩ : Lock).redact id).pending⟩ := by
      rw [get?_redact, hw, Option.map_some]
      exact congrArg (fun owner => some (Lock.mk owner _)) (Lock.owner_redact _)
    rw [release?_of_holds hw, release?_of_holds hw', unlock_redact]
    rfl
  · rw [release?_of_not_holds h, release?_of_not_holds]
    · rfl
    · rwa [← State.holder?_eq_some, holder?_redact, State.holder?_eq_some]

theorem lockAll_redact (txn : Transaction) :
    (l.redact id).lockAll txn.id (txn.redact id).updates
      = (l.lockAll txn.id txn.updates).redact id := by
  unfold Transaction.redact
  split_ifs with h
  · rw [lockAll, List.foldl_map, lockAll]
    exact List.foldl_hom (redact id) fun l u =>
      lock_redact (by simp [Lock.redact, Update.redact, h])
  · exact List.foldl_hom (redact id) fun l u => lock_redact (Lock.redact_of_ne h)

end Locks

namespace Transaction

theorem redact_of_ne {txn : Transaction} (h : txn.id ≠ id) : txn.redact id = txn := if_neg h

@[simp] theorem id_redact (txn : Transaction) : (txn.redact id).id = txn.id := by
  unfold redact
  split <;> rfl

end Transaction

namespace State

variable (s : State)

@[simp] theorem tables_redact : (s.redact id).tables = s.tables := rfl

@[simp] theorem counters_redact : (s.redact id).counters = s.counters := rfl

@[simp] theorem locks_redact : (s.redact id).locks = s.locks.redact id := rfl

theorem verdict_redact (txn : Transaction) :
    (s.redact id).verdict (txn.redact id) = s.verdict txn := by
  have hconflict : ((txn.redact id).updates.any fun u =>
      (s.redact id).locks.isLockedByAnother u.table u.key txn.id)
        = txn.updates.any fun u => s.locks.isLockedByAnother u.table u.key txn.id := by
    simp only [locks_redact, Locks.isLockedByAnother_redact]
    unfold Transaction.redact
    split
    · exact List.any_map
    · rfl
  have hpossible : ((txn.redact id).updates.all fun u =>
      u.kind.holds ((s.redact id).tables.get? u.table u.key))
        = txn.updates.all fun u => u.kind.holds (s.tables.get? u.table u.key) := by
    simp only [tables_redact]
    unfold Transaction.redact
    split
    · simp only [List.all_map, Function.comp_def, Update.redact, UpdateKind.holds_redact]
    · rfl
  rw [verdict, Transaction.id_redact, hconflict, hpossible, verdict]

theorem tryPrepare_redact (txn : Transaction) : (s.redact id).tryPrepare (txn.redact id)
    = ((s.tryPrepare txn).1, (s.tryPrepare txn).2.redact id) := by
  have hv : (s.redact id).verdict (txn.redact id) = s.verdict txn := s.verdict_redact txn
  by_cases h : s.verdict txn = .prepared
  · rw [tryPrepare_of_prepared h, tryPrepare_of_prepared (hv.trans h), lockAll_eq, lockAll_eq,
      Transaction.id_redact]
    exact congrArg (fun l => (_, { s with locks := l })) (Locks.lockAll_redact txn)
  · rw [tryPrepare_of_refused h, tryPrepare_of_refused (hv ▸ h), hv]

theorem commit_redact {txn : Transaction} (h : txn.id ≠ id) :
    (s.redact id).commit txn = (s.commit txn).redact id := by
  refine List.foldl_hom (redact id) fun s u => ?_
  unfold commitKey
  simp only [redact]
  rw [Locks.release?_redact]
  rcases s.locks.release? u.table u.key txn.id with _ | ⟨w, l⟩
  · rfl
  · rw [Option.map_some, Lock.redact_of_ne h]

theorem rollback_redact (txn : Transaction) :
    (s.redact id).rollback txn = (s.rollback txn).redact id := by
  refine List.foldl_hom (redact id) fun s u => ?_
  unfold rollbackKey
  simp only [redact]
  rw [Locks.release?_redact]
  cases s.locks.release? u.table u.key txn.id <;> rfl

theorem prepareAndCommit_redact {txn : Transaction} (h : txn.id ≠ id) :
    (s.redact id).prepareAndCommit txn
      = ((s.prepareAndCommit txn).1, (s.prepareAndCommit txn).2.redact id) := by
  have hprepare : (s.redact id).tryPrepare txn
      = ((s.tryPrepare txn).1, (s.tryPrepare txn).2.redact id) := by
    rw [← s.tryPrepare_redact, Transaction.redact_of_ne h]
  unfold prepareAndCommit
  rw [hprepare]
  rcases s.tryPrepare txn with ⟨_ | _ | _, s'⟩
  · exact congrArg (_, ·) (s'.commit_redact h)
  · rfl
  · rfl

/-- A redacted command does to a redacted state what the command does to the state, and gets the
same answer, unless it makes the writes that were blotted out. -/
theorem execute_redact (c : Command) (h : ∀ txn, c.commits? = some txn → txn.id ≠ id) :
    (s.redact id).execute (c.redact id) = ((s.execute c).1, (s.execute c).2.redact id) := by
  cases c with
  | query q => cases q <;> rfl
  | write t k w =>
    simp only [Command.redact, execute, write, redact, Locks.isLocked_redact]
    split <;> rfl
  | clear t =>
    simp only [Command.redact, execute, clear, redact, Locks.hasLocks_redact]
    split <;> rfl
  | nextValue | currentValue => rfl
  | prepare txn => simp only [Command.redact, execute, tryPrepare_redact]
  | commit txn => simp only [Command.redact, execute, s.commit_redact (h txn rfl)]
  | rollback txn => simp only [Command.redact, execute, rollback_redact]
  | prepareAndCommit txn =>
    simp only [Command.redact, execute_prepareAndCommit, s.prepareAndCommit_redact (h txn rfl)]

theorem run_redact : ∀ (cs : List Command) (s : State),
    (∀ c ∈ cs, ∀ txn, c.commits? = some txn → txn.id ≠ id) →
      (s.redact id).answers (cs.map (Command.redact id)) = s.answers cs
        ∧ (s.redact id).after (cs.map (Command.redact id)) = (s.after cs).redact id
  | [], _, _ => ⟨rfl, rfl⟩
  | c :: cs, s, h => by
    obtain ⟨hanswers, hafter⟩ := run_redact cs (s.execute c).2
      fun d hd => h d (List.mem_cons_of_mem c hd)
    rw [List.map_cons, answers, after_cons, s.execute_redact c (h c List.mem_cons_self), hanswers,
      hafter]
    exact ⟨rfl, rfl⟩

theorem commits?_redact (c : Command) : (c.redact id).commits? = c.commits? := by
  cases c <;> rfl

/-- Redaction keeps what a command is and the id it names, so of two runs that are alike but for it
neither commits the transaction if the other does not. -/
theorem commits?_of_redact_eq {cs cs' : List Command}
    (halike : cs.map (Command.redact id) = cs'.map (Command.redact id))
    (hcs : ∀ c ∈ cs, ∀ txn, c.commits? = some txn → txn.id ≠ id) :
    ∀ c ∈ cs', ∀ txn, c.commits? = some txn → txn.id ≠ id := by
  intro c hc txn ht
  have hmem : c.redact id ∈ cs.map (Command.redact id) := halike ▸ List.mem_map_of_mem hc
  obtain ⟨d, hd, hdc⟩ := List.mem_map.1 hmem
  exact hcs d hd txn (by rw [← commits?_redact, hdc, commits?_redact, ht])

theorem get?_of_redact {l l' : Locks} (h : l.redact id = l'.redact id) (t k : String) :
    l.get? t k = l'.get? t k
      ∨ ∃ v v', l.get? t k = some ⟨id, .put v⟩ ∧ l'.get? t k = some ⟨id, .put v'⟩ := by
  have hget := congrArg (·.get? t k) h
  simp only [Locks.get?_redact] at hget
  rcases hl : l.get? t k with _ | lock <;> rcases hl' : l'.get? t k with _ | lock' <;>
    rw [hl, hl'] at hget
  · exact .inl rfl
  · cases hget
  · cases hget
  · rcases Lock.eq_or_put_of_redact (Option.some.inj hget) with rfl | ⟨v, v', rfl, rfl⟩
    · exact .inl rfl
    · exact .inr ⟨v, v', rfl, rfl⟩

/-- Two runs that differ only in the values that preparations of one transaction name, and that make
none of the writes that wait for it, get the same answers. In the end they have the same tables,
versions and counters, and the same keys are locked by the same transactions; at most the values
differ that wait to be put for this one. -/
theorem pending_writes_invisible (s : State) (id : UInt64) (cs cs' : List Command)
    (halike : cs.map (Command.redact id) = cs'.map (Command.redact id))
    (hcs : ∀ c ∈ cs, ∀ txn, c.commits? = some txn → txn.id ≠ id) :
    let last := s.after cs
    let last' := s.after cs'
    s.answers cs = s.answers cs'
      ∧ last.tables = last'.tables ∧ last.counters = last'.counters
      ∧ (∀ t, last.locks.lockedKeys t = last'.locks.lockedKeys t)
      ∧ (∀ p, last.locks.holder? p = last'.locks.holder? p)
      ∧ last.locks.owners = last'.locks.owners ∧ last.locks.count = last'.locks.count
      ∧ ∀ t k, last.locks.get? t k = last'.locks.get? t k
        ∨ ∃ v v', last.locks.get? t k = some ⟨id, .put v⟩
          ∧ last'.locks.get? t k = some ⟨id, .put v'⟩ := by
  intro last last'
  obtain ⟨hanswers, hafter⟩ := run_redact cs s hcs
  obtain ⟨hanswers', hafter'⟩ := run_redact cs' s (commits?_of_redact_eq halike hcs)
  have hlast : last.redact id = last'.redact id := by rw [← hafter, ← hafter', halike]
  have hlocks : last.locks.redact id = last'.locks.redact id := congrArg locks hlast
  refine ⟨by rw [← hanswers, ← hanswers', halike], ?_, ?_, fun t => ?_, fun p => ?_, ?_, ?_,
    get?_of_redact hlocks⟩
  · rw [← tables_redact, hlast, tables_redact]
  · rw [← counters_redact, hlast, counters_redact]
  · rw [← Locks.lockedKeys_redact, hlocks, Locks.lockedKeys_redact]
  · rw [← Locks.holder?_redact, hlocks, Locks.holder?_redact]
  · rw [← Locks.owners_redact, hlocks, Locks.owners_redact]
  · rw [← Locks.count_redact, hlocks, Locks.count_redact]

theorem pending_writes_invisible_conflict :
    let txn (v w : UInt8) : Transaction :=
      ⟨7, [⟨"t", "k", .put ⟨[v]⟩⟩, ⟨"t", "j", .putIfAbsent ⟨[w]⟩⟩, ⟨"t", "i", .remove⟩]⟩
    let rival : Transaction := ⟨8, [⟨"u", "k", .put ⟨[3]⟩⟩, ⟨"t", "k", .remove⟩]⟩
    let cs (v w : UInt8) : List Command := [.prepare (txn v w), .write "t" "k" (.put ⟨[4]⟩),
      .prepareAndCommit rival, .rollback (txn 0 0), .prepareAndCommit rival, .prepare (txn w v),
      .query (.entries "t"), .write "u" "k" (.replaceValue ⟨[3]⟩ ⟨[5]⟩)]
    let one := (∅ : State).after (cs 1 2)
    let two := (∅ : State).after (cs 8 9)
    (cs 1 2).map (Command.redact 7) = (cs 8 9).map (Command.redact 7)
      ∧ (∀ c ∈ cs 1 2, ∀ txn, c.commits? = some txn → txn.id ≠ 7)
      ∧ answers ∅ (cs 1 2) = answers ∅ (cs 8 9) ∧ one.tables = two.tables
      ∧ one.locks.holder? ("t", "k") = two.locks.holder? ("t", "k")
      ∧ one.locks.get? "t" "k" = some ⟨7, .put ⟨[2]⟩⟩
      ∧ two.locks.get? "t" "k" = some ⟨7, .put ⟨[9]⟩⟩ := by
  intro txn rival cs one two
  have halike : (cs 1 2).map (Command.redact 7) = (cs 8 9).map (Command.redact 7) := by decide
  have hcs : ∀ c ∈ cs 1 2, ∀ txn, c.commits? = some txn → txn.id ≠ 7 := by
    simp [cs, rival, Command.commits?]
  obtain ⟨hanswers, htables, -, -, hholder, -⟩ :=
    pending_writes_invisible ∅ 7 (cs 1 2) (cs 8 9) halike hcs
  exact ⟨halike, hcs, hanswers, htables, hholder _, by decide, by decide⟩

end State

end Lockstep
