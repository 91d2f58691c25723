import Mathlib
import CleancacheRdma.Daemon.Content

/-!
# A client that puts one key

As long as receives with pages are posted and a free list has pages, puts of one
key to a store without other keys are all taken: the first finds a vacant bucket
and each later one its predecessor's.
-/

namespace CleancacheRdma.Daemon

/-! ## The store -/

theorem FreeList.length_le_putFreeAddr (addr : Value) (f : FreeList) :
    f.addrs.length ≤ (f.putFreeAddr addr).addrs.length := by
  rw [FreeList.putFreeAddr]
  split
  · exact Nat.le_succ _
  · exact Nat.le_refl _

theorem PerCPUPool.length_le_give (p : PerCPUPool) (fl : ℕ) (addr : Value) (fl' : ℕ) :
    (p.freelist fl').addrs.length ≤ ((p.give fl addr).freelist fl').addrs.length := by
  simp only [PerCPUPool.give]
  by_cases h : fl' = fl
  · rw [h, Function.update_self]
    exact FreeList.length_le_putFreeAddr addr _
  · rw [Function.update_of_ne h]

namespace KV

variable {hash : HashFuncs} {kv : KV} {key : Key} {value : Value} {cid : ℕ}

/-- A store without other keys has room for `key`. -/
theorem not_filled_of_alone (h : kv.table.TableInv (hash 0)) (hcap : 0 < kv.table.capacity)
    (halone : ∀ k, kv.table.view (hash 0) k ≠ none → k = key)
    (hnone : kv.table.view (hash 0) key = none) :
    ¬ kv.table.Filled (hash 0) key (min LinearProbingApprox.lockSize kv.table.capacity) := by
  intro hfull
  have hu := hfull 0 (Nat.lt_min.mpr ⟨by decide, hcap⟩)
  have hview := h.view_of_bucket (LinearProbingApprox.window_lt hcap key 0) hu
  have hk := halone _ (by rw [hview]; exact Option.some_ne_none _)
  rw [hk, hnone] at hview
  cases hview

/-- An insert into a store without other keys stores the page and takes nothing
off the free lists. -/
theorem insert_alone (cid : ℕ) (h : kv.table.TableInv (hash 0)) (hcap : 0 < kv.table.capacity)
    (hkey : Usable key) (hvalue : value ≠ NONE)
    (halone : ∀ k, kv.table.view (hash 0) k ≠ none → k = key) (d d' : InsertDraw) :
    ∃ kv', kv.insert hash key value cid [d, d'] = .ok kv' ∧
      kv'.table.view (hash 0) = Function.update (kv.table.view (hash 0)) key (some value) ∧
      kv'.table.capacity = kv.table.capacity ∧
      ∀ fl, (kv.pool.freelist fl).addrs.length ≤ (kv'.pool.freelist fl).addrs.length := by
  have hreturns : ∃ kv', kv.insert hash key value cid [d, d'] = .ok kv' :=
    insert_returns h hkey hvalue d d' []
  obtain ⟨kv', hr⟩ := hreturns
  obtain ⟨r, hretry, rfl⟩ := insert_ok hr
  have hlast : ∀ r : KV × ℤ, (if r.2 = 0 then r.1.cbfInsert hash cid key else r.1).table = r.1.table ∧
      (if r.2 = 0 then r.1.cbfInsert hash cid key else r.1).pool = r.1.pool := by
    intro r
    split
    · exact ⟨rfl, rfl⟩
    · exact ⟨rfl, rfl⟩
  refine ⟨_, hr, ?_⟩
  rw [(hlast r).1, (hlast r).2]
  rcases insertRetry_ok h hkey hvalue hretry with
    ⟨hnone, e, hatt⟩ | ⟨slot, hs, rfl, rand, e, hatt⟩
  · have hnot := not_filled_of_alone h hcap halone hnone
    cases hatt with
    | added hi hfill hvac =>
        exact ⟨LinearProbingApprox.view_vacant h hkey hnone hi hfill hvac, rfl,
          fun _ => Nat.le_refl _⟩
    | replaced _ hfull _ => exact absurd hfull hnot
    | refused hfull => exact absurd hfull hnot
    | dropped hfull _ => exact absurd hfull hnot
  · have hview := supersede_view h hs hkey cid rand
    have hnone : (kv.supersede slot cid rand).table.view (hash 0) (kv.table.buckets slot).key =
        none := by rw [hview, Function.update_self]
    obtain ⟨i, hi, hfill, hvac, rfl⟩ := hatt.of_supersede h hs hkey
    refine ⟨?_, rfl, fun fl => PerCPUPool.length_le_give _ _ _ _⟩
    exact (LinearProbingApprox.view_vacant (supersede_inv h slot cid rand) hkey hnone hi hfill
      hvac).trans (by rw [hview, Function.update_idem])

end KV

/-! ## The daemon -/

/-- A draw that takes pages from and gives them to one list. -/
def Draw.ofList (rand : ℕ) : Draw := { rand, inserts := [{ rand }, { rand }] }

namespace Server

variable {Page : Type} {hash : HashFuncs} {s : Server Page}

theorem allocate_of_free (cid rand : ℕ) (h : s.kv.pool.perCliFl = numDataQps)
    (hfree : 0 < (s.kv.pool.freelist (s.kv.pool.flId cid none rand)).addrs.length) :
    ∃ a kv, s.kv.allocate cid none rand = some (a, kv) ∧ kv.table = s.kv.table ∧
      (s.kv.pool.freelist (s.kv.pool.flId cid none rand)).addrs.length =
        (kv.pool.freelist (s.kv.pool.flId cid none rand)).addrs.length + 1 := by
  obtain ⟨a, l, hal⟩ := List.exists_cons_of_length_pos hfree
  have hiter : s.kv.pool.numIter = 4 := by
    rw [PerCPUPool.numIter, h]
    rfl
  have hget : (s.kv.pool.freelist (s.kv.pool.flId cid none rand)).getFreeAddr = some (a,
      { s.kv.pool.freelist (s.kv.pool.flId cid none rand) with addrs := l }) := by
    rw [FreeList.getFreeAddr, hal]
  refine ⟨a, { s.kv with
    pool := s.kv.pool.take (s.kv.pool.flId cid none rand)
      { s.kv.pool.freelist (s.kv.pool.flId cid none rand) with addrs := l } }, ?_, rfl, ?_⟩
  · rw [KV.allocate, PerCPUPool.allocate, hiter, PerCPUPool.allocateLoop, hget]
    rfl
  · simp only [PerCPUPool.take, Function.update_self]
    rw [hal, List.length_cons]

/-- Ready for `n` puts of `key`, with pages from the list that `rand` picks. -/
structure Ready (hash : HashFuncs) (cid : ℕ) (key : Key) (rand n : ℕ) (s : Server Page) : Prop where
  inv : s.Inv hash
  client : cid < s.kv.pool.numClients
  capacity : 0 < s.kv.table.capacity
  alone : ∀ k, s.kv.table.view (hash 0) k ≠ none → k = key
  posted : ∃ pages rest, s.recvs (cid, 0) = pages ++ rest ∧ pages.length = n ∧
    ∀ p ∈ pages, p ≠ NONE ∧ p ≠ FAILED
  free : n ≤ (s.kv.pool.freelist (s.kv.pool.flId cid none rand)).addrs.length

/-- One put of `key`. -/
theorem Ready.put (exclusivePolicy : Bool) {cid rand n : ℕ} {b : Slot Page}
    (h : s.Ready hash cid b.key rand (n + 1))
    (hkey : Usable b.key) (howner : longkeyToCid b.key = cid) (imm : BitVec 32) :
    ∃ s' r, s.step hash exclusivePolicy (.send cid 0 (.slot b) imm (.ofList rand)) = some (s', r) ∧
      s'.Ready hash cid b.key rand n ∧ (s.kv.allocate cid none rand).isSome ∧
      s'.kv.table.view (hash 0) b.key ≠ none := by
  obtain ⟨pages, rest, hrecvs, hlen, hpages⟩ := h.posted
  obtain ⟨addr, pages, rfl⟩ := List.exists_cons_of_length_eq_add_one hlen
  obtain ⟨hnull, hfailed⟩ := hpages addr List.mem_cons_self
  obtain ⟨a, kv, halloc, htable, hlen'⟩ := allocate_of_free cid rand
    h.inv.perCliFl (Nat.lt_of_lt_of_le (Nat.succ_pos n) h.free)
  have hsome : (s.kv.allocate cid none rand).isSome := by
    rw [halloc]
    rfl
  have hinv : kv.table.TableInv (hash 0) := by
    rw [htable]
    exact h.inv.kv.table
  obtain ⟨kv', hins, hview, hcap, hlists⟩ := KV.insert_alone cid hinv
    (by rw [htable]; exact h.capacity) hkey hnull (by rw [htable]; exact h.alone) { rand } { rand }
  rw [htable] at hview hcap
  let t : Server Page := { s.popRecv cid 0 with mem := Function.update s.mem addr b }
  have hmem : (t.mem addr).key = b.key := by
    show (Function.update s.mem addr b addr).key = b.key
    rw [Function.update_self]
  have hprocess : ∃ r, t.processPut hash cid 0 (bitUnmask (ntohl imm)).mid addr (.ofList rand) =
      .ok ({ t.postRecv cid 0 a with kv := kv' }, r) :=
    processPut_of_insert halloc (by rw [hmem]; exact hins)
  obtain ⟨r, hput⟩ := hprocess
  have hstep : s.step hash exclusivePolicy (.send cid 0 (.slot b) imm (.ofList rand)) =
      some ({ t.postRecv cid 0 a with kv := kv' }, r) := by
    simp only [Server.step, hrecvs, List.cons_append, List.head?_cons, deliver,
      if_neg (not_or.mpr ⟨hnull, hfailed⟩), Option.bind_some]
    change (t.processRecv hash cid 0 addr imm (.ofList rand)).toOption = _
    rw [processRecv, if_neg (fun hf => absurd hf.1 (by decide)), if_neg hnull, hput]
    rfl
  have hwf : s.WellFormed (.send cid 0 (.slot b) imm (.ofList rand)) :=
    ⟨h.client, (by decide : 0 < numQps), (by decide : 0 < numDataQps), hkey, howner⟩
  have hfollows := h.inv.step hwf hstep
  refine ⟨_, r, hstep, ⟨hfollows.inv, ?_, ?_, fun k hk => ?_, ?_, ?_⟩, hsome, ?_⟩
  · rw [hfollows.numClients]
    exact h.client
  · show 0 < kv'.table.capacity
    rw [hcap]
    exact h.capacity
  · change kv'.table.view (hash 0) k ≠ none at hk
    rw [hview] at hk
    by_contra hne
    rw [Function.update_of_ne hne] at hk
    exact hne (h.alone k hk)
  · refine ⟨pages, rest ++ [a], ?_, Nat.succ.inj hlen,
      fun p hp => hpages p (List.mem_cons_of_mem _ hp)⟩
    show Function.update (t.recvs) (cid, 0) (t.recvs (cid, 0) ++ [a]) (cid, 0) = _
    have htail : t.recvs (cid, 0) = pages ++ rest := by
      show Function.update s.recvs (cid, 0) (s.recvs (cid, 0)).tail (cid, 0) = _
      rw [Function.update_self, hrecvs]
      rfl
    rw [Function.update_self, htail, List.append_assoc]
  · have hfl : kv'.pool.flId cid none rand = s.kv.pool.flId cid none rand := by
      have hper := hfollows.inv.perCliFl
      change kv'.pool.perCliFl = numDataQps at hper
      simp only [PerCPUPool.flId, hper, h.inv.perCliFl]
    show n ≤ (kv'.pool.freelist (kv'.pool.flId cid none rand)).addrs.length
    rw [hfl]
    have hfree := h.free
    have hle := hlists (s.kv.pool.flId cid none rand)
    omega
  · show kv'.table.view (hash 0) b.key ≠ none
    rw [hview, Function.update_self]
    exact Option.some_ne_none _

/-! ## Start-up -/

theorem postRecv_recvs (cid qid : ℕ) (addr : Value) :
    (s.postRecv cid qid addr).recvs (cid, qid) = s.recvs (cid, qid) ++ [addr] := by
  simp only [postRecv, Function.update_self]

/-- A pass of the loop appends one receive and takes from no list but the four
it tries. -/
theorem prePostRecv_tries (h : s.kv.pool.perCliFl = numDataQps) {cid qid fl : ℕ}
    (hfl : ∀ i < 4, (s.kv.pool.nextFl cid)^[i] (cid * numDataQps + qid) ≠ fl) :
    (∃ addr, (s.prePostRecv cid qid).recvs (cid, qid) = s.recvs (cid, qid) ++ [addr]) ∧
    (s.prePostRecv cid qid).kv.pool.perCliFl = numDataQps ∧
    (s.prePostRecv cid qid).kv.pool.freelist fl = s.kv.pool.freelist fl := by
  unfold prePostRecv
  split
  · split
    next value kv halloc =>
      obtain ⟨⟨a, pool⟩, hpool, heq⟩ := Option.map_eq_some_iff.mp halloc
      cases heq
      obtain ⟨i, hi, f, -, rfl⟩ := PerCPUPool.allocateLoop_tried hpool
      have hiter : s.kv.pool.numIter = 4 := by
        rw [PerCPUPool.numIter, h]
        rfl
      have hne := hfl i (by rwa [hiter] at hi)
      refine ⟨⟨_, postRecv_recvs _ _ _⟩, h, ?_⟩
      simp only [PerCPUPool.flId, h]
      exact Function.update_of_ne hne.symm _ _
    · exact ⟨⟨FAILED, postRecv_recvs _ _ _⟩, h, rfl⟩
  · exact ⟨⟨NONE, postRecv_recvs _ _ _⟩, h, rfl⟩

theorem nextFl_congr {p q : PerCPUPool} (h : p.perCliFl = q.perCliFl) (cid fl : ℕ) :
    p.nextFl cid fl = q.nextFl cid fl := by
  simp only [PerCPUPool.nextFl, h]

theorem iterate_prePostRecv_frame (cid qid fl n : ℕ) :
    ∀ {s : Server Page}, s.kv.pool.perCliFl = numDataQps →
      (∀ i < 4, (s.kv.pool.nextFl cid)^[i] (cid * numDataQps + qid) ≠ fl) →
      (∃ rest, ((fun s => prePostRecv s cid qid)^[n] s).recvs (cid, qid) =
        s.recvs (cid, qid) ++ rest) ∧
      ((fun s => prePostRecv s cid qid)^[n] s).kv.pool.freelist fl = s.kv.pool.freelist fl := by
  induction n with
  | zero => intro s _ _; exact ⟨⟨[], (List.append_nil _).symm⟩, rfl⟩
  | succ n ih =>
      intro s h hfl
      obtain ⟨⟨addr, haddr⟩, hper, hlist⟩ := prePostRecv_tries h hfl
      have hnext : (s.prePostRecv cid qid).kv.pool.nextFl cid = s.kv.pool.nextFl cid :=
        funext fun fl => nextFl_congr (hper.trans h.symm) cid fl
      obtain ⟨⟨rest, hrest⟩, hlist'⟩ := ih (s := s.prePostRecv cid qid) hper (by rwa [hnext])
      rw [Function.iterate_succ_apply]
      refine ⟨⟨addr :: rest, ?_⟩, hlist'.trans hlist⟩
      rw [hrest, haddr, List.append_assoc]
      rfl

/-- While the queue's own list has pages, they are posted from the top. -/
theorem iterate_prePostRecv_take {cid qid : ℕ} (hqid : qid < numDataQps) (n : ℕ) :
    ∀ {s : Server Page}, s.kv.pool.perCliFl = numDataQps →
      n ≤ (s.kv.pool.freelist (cid * numDataQps + qid)).addrs.length →
      ((fun s => prePostRecv s cid qid)^[n] s).recvs (cid, qid) =
        s.recvs (cid, qid) ++ (s.kv.pool.freelist (cid * numDataQps + qid)).addrs.take n ∧
      ((fun s => prePostRecv s cid qid)^[n] s).kv.pool.perCliFl = numDataQps ∧
      ∀ fl, fl ≠ cid * numDataQps + qid →
        ((fun s => prePostRecv s cid qid)^[n] s).kv.pool.freelist fl = s.kv.pool.freelist fl := by
  induction n with
  | zero =>
      intro s h _
      refine ⟨?_, h, fun _ _ => rfl⟩
      rw [List.take_zero, List.append_nil]
      rfl
  | succ n ih =>
      intro s h hlen
      obtain ⟨a, l, hal⟩ := List.exists_cons_of_length_pos (Nat.lt_of_lt_of_le (Nat.succ_pos n) hlen)
      have hone : s.prePostRecv cid qid = ({ s with
          kv := { s.kv with
            pool := s.kv.pool.take (cid * numDataQps + qid)
              { s.kv.pool.freelist (cid * numDataQps + qid) with addrs := l } } } :
          Server Page).postRecv cid qid a := by
        have hget : (s.kv.pool.freelist (cid * numDataQps + qid)).getFreeAddr = some (a,
            { s.kv.pool.freelist (cid * numDataQps + qid) with addrs := l }) := by
          rw [FreeList.getFreeAddr, hal]
        have hiter : s.kv.pool.numIter = 4 := by
          rw [PerCPUPool.numIter, h]
          rfl
        rw [prePostRecv, if_pos hqid, KV.allocate, PerCPUPool.allocate, hiter,
          PerCPUPool.allocateLoop, PerCPUPool.flId, h, hget]
        rfl
      rw [hal, List.length_cons] at hlen
      obtain ⟨hrecvs, hper, hlists⟩ := ih (s := s.prePostRecv cid qid) (by rw [hone]; exact h)
        (by rw [hone]; simpa [postRecv, PerCPUPool.take] using Nat.le_of_succ_le_succ hlen)
      simp only [Function.iterate_succ_apply]
      refine ⟨?_, hper, fun fl hfl => ?_⟩
      · rw [hrecvs, hone, postRecv_recvs, hal]
        simp [postRecv, PerCPUPool.take]
      · rw [hlists fl hfl, hone]
        simp [postRecv, PerCPUPool.take, hfl]

/-- Pages are posted from the queue's own list, and a list that the queue does
not try keeps its pages. -/
theorem prePostRecvs_supply (cid qid n fl : ℕ) (hqid : qid < numDataQps)
    (h : s.kv.pool.perCliFl = numDataQps) (hn : n ≤ maxQpsRecvs)
    (hlen : n ≤ (s.kv.pool.freelist (cid * numDataQps + qid)).addrs.length)
    (hfl : ∀ i < 4, (s.kv.pool.nextFl cid)^[i] (cid * numDataQps + qid) ≠ fl) :
    (∃ rest, (s.prePostRecvs cid qid).recvs (cid, qid) =
      s.recvs (cid, qid) ++ (s.kv.pool.freelist (cid * numDataQps + qid)).addrs.take n ++ rest) ∧
    (s.prePostRecvs cid qid).kv.pool.freelist fl = s.kv.pool.freelist fl := by
  obtain ⟨hrecvs, hper, hlists⟩ := iterate_prePostRecv_take hqid n h hlen
  have hnext : ((fun s => prePostRecv s cid qid)^[n] s).kv.pool.nextFl cid =
      s.kv.pool.nextFl cid := funext fun fl => nextFl_congr (hper.trans h.symm) cid fl
  obtain ⟨⟨rest, hrest⟩, hlist⟩ := iterate_prePostRecv_frame cid qid fl
    (maxQpsRecvs - n) hper
    (by rwa [hnext])
  rw [prePostRecvs, ← Nat.sub_add_cancel hn, Function.iterate_add_apply]
  refine ⟨⟨rest, by rw [hrest, hrecvs]⟩, hlist.trans (hlists fl ?_)⟩
  exact (hfl 0 (by decide)).symm

/-! ## A roomy daemon -/

/-- Four mebibytes for one client: 127 pages for each list. -/
def roomyServer : Server ℕ := .new 4096 4194304 1 1 8 fun _ => ⟨0, 0⟩

/-- The client has connected. -/
def roomyConnected : Server ℕ :=
  let s := (roomyServer.recvMr 0).popRecv 0 0
  { s with clientMR := Function.update s.clientMR 0 1 }

/-- Its put queue has receives. -/
def roomyStarted : Server ℕ := roomyConnected.prePostRecvs 0 0

def roomyStartUp : List (ServerStep ℕ) :=
  [.recvMr 0, .send 0 0 (.mmInfo 1) 0 {}, .prePostRecvs 0 0]

theorem roomyConnected_inv (hash : HashFuncs) : roomyConnected.Inv hash :=
  ⟨KV.new_inv _ _ _ _ _, rfl⟩

theorem roomyStarted_table : roomyStarted.kv.table = roomyConnected.kv.table := by
  rw [roomyStarted]
  exact (prePostRecvs_frame 0 0).2

theorem roomyStarted_view (hash : HashFuncs) (key : Key) :
    roomyStarted.kv.table.view (hash 0) key = none := by
  rw [roomyStarted_table]
  exact congrFun (LinearProbingApprox.view_new _) key

/-- It is ready for two batches of puts of one key. -/
theorem roomyStarted_ready (hash : HashFuncs) (key : Key) :
    roomyStarted.Ready hash 0 key 4 64 := by
  have hfollows : Follows hash roomyConnected (roomyConnected.prePostRecvs 0 0) fun _ => 0 :=
    (roomyConnected_inv hash).prePostRecvs (by decide) (by decide)
  obtain ⟨⟨rest, hrest⟩, hlist⟩ := prePostRecvs_supply (s := roomyConnected) 0 0 64 4 (by decide)
    rfl (by decide) (by decide +kernel) (by decide)
  rw [← roomyStarted] at hfollows hrest hlist
  refine ⟨hfollows.inv, ?_, ?_, fun k hk => absurd (roomyStarted_view hash k) hk, ?_, ?_⟩
  · rw [hfollows.numClients]
    decide
  · rw [roomyStarted_table]
    decide
  · refine ⟨_, rest, hrest, ?_, ?_⟩
    · decide +kernel
    · decide +kernel
  · have hfl : roomyStarted.kv.pool.flId 0 none 4 = 4 := by
      rw [PerCPUPool.flId, hfollows.inv.perCliFl]
      rfl
    rw [hfl, hlist]
    decide +kernel

end Server

end CleancacheRdma.Daemon
