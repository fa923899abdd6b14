import UdpQueue.Library.Guarded
import UdpQueue.Loop

namespace UdpQueue

namespace Item

def store (item : Item) (data : List UInt8) : Item :=
  let nextIndex := (item.buffer.index + item.buffer.size) % item.buffer.capacity
  { item with packetBuffer := item.packetBuffer.insert nextIndex { data, length := data.length } }

def grow (item : Item) : Item :=
  { item with buffer := { item.buffer with size := item.buffer.size + 1 } }

theorem enqueue_eq (item : Item) (data : List UInt8) : item.enqueue data = (item.store data).grow := rfl

end Item

inductive Work where
  | request (request : Request)
  | turn

inductive Outcome where
  | replied (reply : Reply)
  | left
  | processed (currentTime nanos : Int) (result : Processed)
  | undefined

inductive Body where
  | counting (call : PushCall)
  | inserting (call : PushCall)
  | comparing (call : PushCall)
  | storing (call : PushCall)
  | growing (call : PushCall)
  | finding (key : UInt64)
  | draining (key : UInt64) (discarded : List Unsent)
  | looking (key : UInt64)
  | measuring (key : UInt64)
  | setting
  | checking
  | reading
  | facing (currentTime : Int)
  | vacating (currentTime : Int) (key : Int64) (item : Item)
  | stamping (currentTime : Int) (key : Int64)
  | popping (currentTime : Int) (key : Int64)
  | lifting (currentTime : Int) (key : Int64) (packetOut : Unsent)
  | putting (currentTime : Int) (key : Int64) (item : Item) (packetOut : Unsent)
  | rescheduling (currentTime : Int) (key : Int64) (packetOut : Unsent)
  | aiming (currentTime nanos : Int) (packetOut : Unsent) (exit : Exit) (freed : List AddrInfo)

def Work.start : Work → Body
  | .request (.push call) => .counting call
  | .request (.remove key) => .finding key
  | .request (.getRemainingCapacity key) => .looking key
  | .request .shutDown => .setting
  | .turn => .checking

namespace Manager
variable (manager : Manager)

def setItem (key : Int64) (item : Item) : Manager :=
  { manager with queues := manager.queues.replace key item }

def insertItem (key : Int64) (item : Item) : Manager :=
  { manager with queues := OrderedMap.insert key item manager.queues }

def eraseItem (key : Int64) : Manager := { manager with queues := manager.queues.erase key }

-- `queues[key]`, then `use` of the item; a null item is not survived
def withItem (key : Int64) (use : Item → Manager × (Body ⊕ Outcome)) : Manager × (Body ⊕ Outcome) :=
  match manager.queues.lookup key with
  | none => (manager, .inr .undefined)
  | some item => use item

def sectionStep (reading : Int) : Body → Manager × (Body ⊕ Outcome)
  | .counting call =>
    (manager, .inl (if call.key.toInt64 ∈ manager.queues then .comparing call else .inserting call))
  | .inserting call =>
    (manager.insertItem call.key.toInt64 (manager.newItem call), .inl (.comparing call))
  | .comparing call => manager.withItem call.key.toInt64 fun item =>
    if item.buffer.size ≥ item.buffer.capacity then (manager, .inr (.replied (.push false)))
    else (manager, .inl (.storing call))
  | .storing call => manager.withItem call.key.toInt64 fun item =>
    (manager.setItem call.key.toInt64 (item.store call.data), .inl (.growing call))
  | .growing call => manager.withItem call.key.toInt64 fun item =>
    (manager.setItem call.key.toInt64 item.grow, .inr (.replied (.push true)))
  | .finding key =>
    if key.toInt64 ∈ manager.queues then (manager, .inl (.draining key []))
    else (manager, .inr (.replied (.remove false [])))
  | .draining key discarded => manager.withItem key.toInt64 fun item =>
    if 0 < item.buffer.size then
      (manager.setItem key.toInt64 item.pop.1, .inl (.draining key (discarded ++ [item.pop.2])))
    else (manager, .inr (.replied (.remove true discarded)))
  | .looking key =>
    if key.toInt64 ∈ manager.queues then (manager, .inl (.measuring key))
    else (manager, .inr (.replied (.remaining manager.queueBufferCapacity)))
  | .measuring key => manager.withItem key.toInt64 fun item =>
    (manager, .inr (.replied (.remaining (item.buffer.capacity - item.buffer.size))))
  | .setting => (manager.shutDown, .inr (.replied .shutDown))
  | .checking => (manager, if manager.shuttingDown then .inr .left else .inl .reading)
  | .reading => (manager, .inl (.facing reading))
  | .facing currentTime =>
    match OrderedMap.front manager.queues with
    | none =>
      (manager, .inr (.processed currentTime currentTime
        { packetOut := Unsent.clear {}, targetTime := currentTime + manager.packetInterval
          exit := .idle }))
    | some (key, item) =>
      if item.buffer.size = 0 then (manager, .inl (.vacating currentTime key item))
      else if item.nextDueTime = 0 then (manager, .inl (.stamping currentTime key))
      else if item.nextDueTime - currentTime ≥ 1500000 then
        (manager, .inr (.processed currentTime currentTime
          { packetOut := Unsent.clear {}, targetTime := item.nextDueTime, exit := .waiting key }))
      else (manager, .inl (.popping currentTime key))
  | .vacating currentTime key item =>
    (manager.eraseItem key,
      .inl (.aiming currentTime currentTime (Unsent.clear {}) (.erased key) (addrinfoFree item)))
  | .stamping currentTime key => manager.withItem key fun item =>
    (manager.setItem key { item with nextDueTime := currentTime }, .inl (.popping currentTime key))
  | .popping currentTime key => manager.withItem key fun item =>
    (manager.setItem key item.pop.1, .inl (.lifting currentTime key item.pop.2))
  | .lifting currentTime key packetOut => manager.withItem key fun item =>
    (manager.eraseItem key, .inl (.putting currentTime key item packetOut))
  | .putting currentTime key item packetOut =>
    (manager.insertItem key item, .inl (.rescheduling currentTime key packetOut))
  | .rescheduling currentTime key packetOut => manager.withItem key fun item =>
    (manager.setItem key { item with nextDueTime := manager.nextDue item.nextDueTime reading },
      .inl (.aiming currentTime reading packetOut (.popped key item.nextDueTime) []))
  | .aiming currentTime nanos packetOut exit freed =>
    (manager, .inr (.processed currentTime nanos
      { packetOut, targetTime := manager.getTargetTime nanos, exit, freed }))

end Manager

-- every critical section under `lock`; a reading of the clock is at hand at each of its steps
def sections : Program Manager Work Int Outcome Body where
  start := Work.start
  step manager body reading := manager.sectionStep reading body

-- what a thread alone under `lock`, having found the manager `s`, knows of it at each place
inductive At (s : Manager) : Work → Body → Manager → Prop
  | counting (call : PushCall) : At s (.request (.push call)) (.counting call) s
  | inserting (call : PushCall) (hk : call.key.toInt64 ∉ s.queues) :
      At s (.request (.push call)) (.inserting call) s
  | comparing (call : PushCall) :
      At s (.request (.push call)) (.comparing call) { s with queues := s.queuesFor call }
  | storing (call : PushCall) (hs : (s.itemFor call).buffer.size < (s.itemFor call).buffer.capacity) :
      At s (.request (.push call)) (.storing call) { s with queues := s.queuesFor call }
  | growing (call : PushCall) (hs : (s.itemFor call).buffer.size < (s.itemFor call).buffer.capacity) :
      At s (.request (.push call)) (.growing call)
        ({ s with queues := s.queuesFor call }.setItem call.key.toInt64
          ((s.itemFor call).store call.data))
  | finding (key : UInt64) : At s (.request (.remove key)) (.finding key) s
  | draining (key : UInt64) (item rest : Item) (discarded : List Unsent)
      (hl : s.queues.lookup key.toInt64 = some item)
      (hle : rest.buffer.size.toNat ≤ item.buffer.size.toNat)
      (hd : item.drain = (rest.drain.1, discarded ++ rest.drain.2)) :
      At s (.request (.remove key)) (.draining key discarded) (s.setItem key.toInt64 rest)
  | looking (key : UInt64) : At s (.request (.getRemainingCapacity key)) (.looking key) s
  | measuring (key : UInt64) (hk : key.toInt64 ∈ s.queues) :
      At s (.request (.getRemainingCapacity key)) (.measuring key) s
  | setting : At s (.request .shutDown) .setting s
  | checking : At s .turn .checking s
  | reading (hn : s.shuttingDown = false) : At s .turn .reading s
  | facing (t : Int) (hn : s.shuttingDown = false) : At s .turn (.facing t) s
  | vacating (t : Int) (key : Int64) (item : Item) (hn : s.shuttingDown = false)
      (hf : OrderedMap.front s.queues = some (key, item)) (hs : item.buffer.size = 0) :
      At s .turn (.vacating t key item) s
  | stamping (t : Int) (key : Int64) (item : Item) (hn : s.shuttingDown = false)
      (hf : OrderedMap.front s.queues = some (key, item)) (hs : item.buffer.size ≠ 0)
      (hd : item.nextDueTime = 0) : At s .turn (.stamping t key) s
  | popping (t : Int) (key : Int64) (item : Item) (m : Manager) (hn : s.shuttingDown = false)
      (hl : m.queues.lookup key = some item)
      (hp : ∀ u, s.processNextLocked {} t u = m.serve key item u) : At s .turn (.popping t key) m
  | lifting (t : Int) (key : Int64) (item : Item) (m : Manager) (hn : s.shuttingDown = false)
      (hl : m.queues.lookup key = some item.pop.1)
      (hp : ∀ u, s.processNextLocked {} t u = m.serve key item u) :
      At s .turn (.lifting t key item.pop.2) m
  | putting (t : Int) (key : Int64) (item : Item) (m : Manager) (hn : s.shuttingDown = false)
      (hk : key ∉ m.queues) (hp : ∀ u, s.processNextLocked {} t u = m.serve key item u) :
      At s .turn (.putting t key item.pop.1 item.pop.2) m
  | rescheduling (t : Int) (key : Int64) (item : Item) (m : Manager) (hn : s.shuttingDown = false)
      (hk : key ∉ m.queues) (hp : ∀ u, s.processNextLocked {} t u = m.serve key item u) :
      At s .turn (.rescheduling t key item.pop.2) (m.insertItem key item.pop.1)
  | aiming (t u : Int) (m : Manager) (packetOut : Unsent) (exit : Exit) (freed : List AddrInfo)
      (hn : s.shuttingDown = false)
      (hp : s.processNextLocked {} t u =
        (m, { packetOut, targetTime := m.getTargetTime u, exit, freed })) :
      At s .turn (.aiming t u packetOut exit freed) m

-- the section as one step of the manager
inductive Atomically (s : Manager) : Work → Manager → Outcome → Prop
  | request (request : Request) :
      Atomically s (.request request) (client.next s request.op)
        (.replied (client.out s request.op).reply)
  | left (hs : s.shuttingDown = true) : Atomically s .turn s .left
  | processed (t u : Int) (hs : s.shuttingDown = false) :
      Atomically s .turn (s.processNextLocked {} t u).1
        (.processed t u (s.processNextLocked {} t u).2)

namespace Manager
variable {m : Manager} {key : Int64} {item : Item}

theorem withItem_of_lookup (h : m.queues.lookup key = some item)
    (use : Item → Manager × (Body ⊕ Outcome)) : m.withItem key use = use item := by
  rw [withItem, h]

theorem setItem_lookup (h : m.queues.lookup key = some item) (item' : Item) :
    (m.setItem key item').queues.lookup key = some item' :=
  OrderedMap.lookup_replace item' (AList.lookup_isSome.mp (by rw [h]; rfl))

theorem setItem_self (h : m.queues.lookup key = some item) : m.setItem key item = m := by
  rw [setItem, OrderedMap.replace_self h]

theorem setItem_setItem (m : Manager) (key : Int64) (item item' : Item) :
    (m.setItem key item).setItem key item' = m.setItem key item' := by
  simp only [setItem, OrderedMap.replace_replace]

theorem setItem_serve (m : Manager) (key : Int64) (item item' : Item) (u : Int) :
    (m.setItem key item).serve key item' u = m.serve key item' u := by
  simp only [serve, served, setItem, OrderedMap.erase_replace]
  rfl

theorem eraseItem_serve (m : Manager) (key : Int64) (item : Item) (u : Int) :
    (m.eraseItem key).serve key item u = m.serve key item u := by
  have he : (m.queues.erase key).erase key = m.queues.erase key :=
    OrderedMap.erase_of_notMem (by simp)
  simp only [serve, served, eraseItem, he]
  rfl

theorem insertItem_lookup (h : key ∉ m.queues) (item : Item) :
    (m.insertItem key item).queues.lookup key = some item := by
  rw [insertItem, OrderedMap.lookup_insert, AList.lookup_eq_none.mpr h]
  rfl

theorem serve_eq (h : key ∉ m.queues) (item : Item) (u : Int) :
    m.serve key item u =
      ((m.insertItem key item.pop.1).setItem key (m.served item u),
        { packetOut := item.pop.2
          targetTime := ((m.insertItem key item.pop.1).setItem key (m.served item u)).getTargetTime u
          exit := .popped key item.nextDueTime, freed := [] }) := by
  simp only [serve, insertItem, setItem, OrderedMap.erase_of_notMem h, OrderedMap.replace_insert _ _ h]

theorem processNextLocked_idle {m : Manager} (hf : OrderedMap.front m.queues = none) (t u : Int) :
    m.processNextLocked {} t u =
      (m, { packetOut := Unsent.clear {}, targetTime := t + m.packetInterval, exit := .idle }) := by
  simp only [processNextLocked, hf]

theorem processNextLocked_front (hf : OrderedMap.front m.queues = some (key, item)) (t u : Int) :
    m.processNextLocked {} t u =
      if item.buffer.size = 0 then
        (m.eraseItem key, { packetOut := Unsent.clear {}
                            targetTime := (m.eraseItem key).getTargetTime t
                            exit := .erased key, freed := addrinfoFree item })
      else if item.nextDueTime = 0 then m.serve key { item with nextDueTime := t } u
      else if item.nextDueTime - t ≥ 1500000 then
        (m, { packetOut := Unsent.clear {}, targetTime := item.nextDueTime, exit := .waiting key })
      else m.serve key item u := by
  simp only [processNextLocked, hf]
  rfl

end Manager

section Atomically
variable {s m : Manager}

theorem Atomically.push {call : PushCall} {accepted : Bool} (h : s.pushLocked call = (m, accepted)) :
    Atomically s (.request (.push call)) m (.replied (.push accepted)) := by
  have ha := Atomically.request (s := s) (.push call)
  change Atomically s _ (s.pushLocked call).1 (.replied (.push (s.pushLocked call).2)) at ha
  rwa [h] at ha

theorem Atomically.remove {key : UInt64} {found : Bool} {discarded : List Unsent}
    (h : s.remove key = (m, found, discarded)) :
    Atomically s (.request (.remove key)) m (.replied (.remove found discarded)) := by
  have ha := Atomically.request (s := s) (.remove key)
  change Atomically s _ (s.remove key).1
    (.replied (.remove (s.remove key).2.1 (s.remove key).2.2)) at ha
  rwa [h] at ha

theorem Atomically.remaining {key : UInt64} {capacity : SizeT} (h : s.getRemainingCapacity key = capacity) :
    Atomically s (.request (.getRemainingCapacity key)) s (.replied (.remaining capacity)) := by
  have ha := Atomically.request (s := s) (.getRemainingCapacity key)
  change Atomically s _ s (.replied (.remaining (s.getRemainingCapacity key))) at ha
  rwa [h] at ha

theorem Atomically.process {t u : Int} {result : Processed} (hn : s.shuttingDown = false)
    (h : s.processNextLocked {} t u = (m, result)) : Atomically s .turn m (.processed t u result) := by
  have ha := Atomically.processed t u hn
  rwa [h] at ha

def Leads (s : Manager) (i : Work) : Manager × (Body ⊕ Outcome) → Prop
  | (m, .inl b) => At s i b m
  | (m, .inr o) => Atomically s i m o

variable {i : Work} {b : Body}

theorem At.start (s : Manager) (i : Work) : At s i i.start s := by
  rcases i with ⟨call | key | key | _⟩ | _
  · exact .counting call
  · exact .finding key
  · exact .looking key
  · exact .setting
  · exact .checking

theorem At.push_step (call : PushCall) (h : At s (.request (.push call)) b m) (reading : Int) :
    Leads s (.request (.push call)) (m.sectionStep reading b) := by
  have hlookup : ({ s with queues := s.queuesFor call } : Manager).queues.lookup call.key.toInt64 =
      some (s.itemFor call) := s.queuesFor_lookup call
  cases h with
  | counting =>
    by_cases hk : call.key.toInt64 ∈ s.queues
    · have hq : s.queuesFor call = s.queues := OrderedMap.insert_of_mem hk
      have hat := At.comparing (s := s) call
      rw [hq] at hat
      simp only [Manager.sectionStep, if_pos hk]
      exact hat
    · simp only [Manager.sectionStep, if_neg hk]
      exact At.inserting call hk
  | inserting _ hk => exact At.comparing call
  | comparing =>
    simp only [Manager.sectionStep, Manager.withItem_of_lookup hlookup]
    split_ifs with hs
    · refine Atomically.push ?_
      simp only [Manager.pushLocked_eq, if_neg (UInt64.not_lt.mpr hs)]
    · exact At.storing call (UInt64.not_le.mp hs)
  | storing _ hs =>
    simp only [Manager.sectionStep, Manager.withItem_of_lookup hlookup]
    exact At.growing call hs
  | growing _ hs =>
    have hstored := Manager.setItem_lookup hlookup ((s.itemFor call).store call.data)
    simp only [Manager.sectionStep, Manager.withItem_of_lookup hstored, Manager.setItem_setItem]
    refine Atomically.push ?_
    simp only [Manager.pushLocked_eq, if_pos hs, Item.enqueue_eq]
    rfl

theorem At.remove_step (key : UInt64) (h : At s (.request (.remove key)) b m) (reading : Int) :
    Leads s (.request (.remove key)) (m.sectionStep reading b) := by
  cases h with
  | finding =>
    by_cases hk : key.toInt64 ∈ s.queues
    · obtain ⟨item, hl⟩ := Option.isSome_iff_exists.mp (AList.lookup_isSome.mpr hk)
      have hat := At.draining key item item [] hl le_rfl rfl
      rw [Manager.setItem_self hl] at hat
      simp only [Manager.sectionStep, if_pos hk]
      exact hat
    · simp only [Manager.sectionStep, if_neg hk]
      refine Atomically.remove ?_
      rw [Manager.remove, AList.lookup_eq_none.mpr hk]
  | draining _ item rest discarded hl hle hd =>
    simp only [Manager.sectionStep, Manager.withItem_of_lookup (Manager.setItem_lookup hl rest)]
    split_ifs with hs
    · simp only [Manager.setItem_setItem]
      have hsize := Item.pop_size hs
      refine At.draining key item rest.pop.1 _ hl (by omega) ?_
      rw [hd, Item.drain_of_pos hs, List.append_assoc]
      rfl
    · refine Atomically.remove ?_
      rw [Manager.remove, hl]
      simp only [hd, Item.drain_of_zero hs, List.append_nil]
      rfl

theorem At.request_step {request : Request} (h : At s (.request request) b m) (reading : Int) :
    Leads s (.request request) (m.sectionStep reading b) := by
  cases request with
  | push call => exact h.push_step call reading
  | remove key => exact h.remove_step key reading
  | getRemainingCapacity key =>
    cases h with
    | looking =>
      by_cases hk : key.toInt64 ∈ s.queues
      · simp only [Manager.sectionStep, if_pos hk]
        exact At.measuring key hk
      · simp only [Manager.sectionStep, if_neg hk]
        refine Atomically.remaining ?_
        rw [Manager.getRemainingCapacity, AList.lookup_eq_none.mpr hk]
    | measuring _ hk =>
      obtain ⟨item, hl⟩ := Option.isSome_iff_exists.mp (AList.lookup_isSome.mpr hk)
      simp only [Manager.sectionStep, Manager.withItem_of_lookup hl]
      refine Atomically.remaining ?_
      rw [Manager.getRemainingCapacity, hl]
  | shutDown =>
    cases h with
    | setting => exact Atomically.request .shutDown

theorem At.facing_step (t : Int) (hn : s.shuttingDown = false) (reading : Int) :
    Leads s .turn (s.sectionStep reading (.facing t)) := by
  rw [Manager.sectionStep]
  cases hf : OrderedMap.front s.queues with
  | none => exact Atomically.process hn (Manager.processNextLocked_idle hf t t)
  | some e =>
    obtain ⟨key, item⟩ := e
    have hp := Manager.processNextLocked_front hf t
    simp only []
    split_ifs with hs hd hw
    · exact At.vacating t key item hn hf hs
    · exact At.stamping t key item hn hf hs hd
    · refine Atomically.process hn ?_
      rw [hp, if_neg hs, if_neg hd, if_pos hw]
    · refine At.popping t key item s hn (OrderedMap.front_lookup hf) fun u => ?_
      rw [hp, if_neg hs, if_neg hd, if_neg hw]

theorem At.turn_step (h : At s .turn b m) (reading : Int) :
    Leads s .turn (m.sectionStep reading b) := by
  cases h with
  | checking =>
    rw [Manager.sectionStep]
    cases hn : s.shuttingDown with
    | true => exact Atomically.left hn
    | false => exact At.reading hn
  | reading hn => exact At.facing reading hn
  | facing t hn => exact At.facing_step t hn reading
  | vacating t key item hn hf hs =>
    refine At.aiming t t _ _ _ _ hn ?_
    rw [Manager.processNextLocked_front hf, if_pos hs]
  | stamping t key item hn hf hs hd =>
    simp only [Manager.sectionStep, Manager.withItem_of_lookup (OrderedMap.front_lookup hf)]
    refine At.popping t key _ _ hn (Manager.setItem_lookup (OrderedMap.front_lookup hf) _) fun u => ?_
    rw [Manager.setItem_serve, Manager.processNextLocked_front hf, if_neg hs, if_pos hd]
  | popping t key item _ hn hl hp =>
    simp only [Manager.sectionStep, Manager.withItem_of_lookup hl]
    refine At.lifting t key item _ hn (Manager.setItem_lookup hl _) fun u => ?_
    rw [Manager.setItem_serve, hp]
  | lifting t key item _ hn hl hp =>
    simp only [Manager.sectionStep, Manager.withItem_of_lookup hl]
    refine At.putting t key item _ hn (by simp [Manager.eraseItem]) fun u => ?_
    rw [Manager.eraseItem_serve, hp]
  | putting t key item _ hn hk hp => exact At.rescheduling t key item m hn hk hp
  | rescheduling t key item m hn hk hp =>
    simp only [Manager.sectionStep, Manager.withItem_of_lookup (Manager.insertItem_lookup hk _)]
    refine At.aiming t reading _ _ _ _ hn ?_
    rw [hp, Manager.serve_eq hk]
    rfl
  | aiming t u _ packetOut exit freed hn hp => exact Atomically.process hn hp

theorem At.step (h : At s i b m) (reading : Int) : Leads s i (sections.step m b reading) := by
  change Leads s i (m.sectionStep reading b)
  cases i with
  | request request => exact h.request_step reading
  | turn => exact h.turn_step reading

end Atomically

theorem sections_annotated : Annotation sections At Atomically where
  start := At.start
  go reading _ _ h hp := by
    have hstep := h.step reading
    rwa [hp] at hstep
  done reading _ _ h hp := by
    have hstep := h.step reading
    rwa [hp] at hstep

end UdpQueue
