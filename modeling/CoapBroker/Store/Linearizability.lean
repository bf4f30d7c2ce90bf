import CoapBroker.Store.Atomicity

/-!
# Two calls on one list

Two threads run one call each on a list of records (`Linearizable`): whatever the order of their
steps, neither fails, and the records in the end are those of the two calls one after the other.

This holds if and only if the calls are independent (`linearizable_iff`): not both add a record,
and when they are about one record, each of them tolerates what the other writes to it
(`Call.Tolerates`).

* A call that has not written yet goes on as it would after the other (`Valid.overtaken`), so two
  independent calls take effect one after the other.
* Two calls that add a record both link their node to the node that was the last, and one of the
  new nodes is lost, or both add a record for the same path (`not_linearizable_of_inserts`).
* `updateTopicInfo` and `updateTopicData` read fields before the section of `setTopic` that
  writes them back. When the other call runs in between, what was read is stale
  (`setTopic_overtaken`), has been freed, or is `NULL` where it was not (`length_overtaken`).
-/

namespace CoapBroker

namespace Threads

open PtrList Interleave

/-! ## Independence -/

/-- A call, having read fields of a record, may be overtaken by another call on it. -/
def Call.Tolerates (c c' : Call) (t : TopicData) : Prop :=
  match c with
  | .addTopicWEC .. | .updateTopicInfo .. =>
    match c' with
    | .addTopicWEC .. | .updateTopicInfo .. => t.data = none
    | .updateTopicData _ dataMa data dataSize =>
      dataLength t.data = 0 ∧ dataLength (copyData data dataSize) = 0 ∧
        (t.data.isSome → (copyData data dataSize).isSome) ∧ t.dataMa = dataMa
    | .deleteTopicData _ => t.data = none ∧ t.dataMa = 0
  | .updateTopicData .. =>
    match c' with
    | .addTopicWEC _ topicMa | .updateTopicInfo _ topicMa => t.topicMa = topicMa
    | .updateTopicData .. | .deleteTopicData _ => True
  | .deleteTopicData _ => True

/-- Not both calls add a record, and on one record, each tolerates the other. -/
def Independent (db : TopicDB) (c c' : Call) : Prop :=
  ¬(c.Inserts db ∧ c'.Inserts db) ∧
    ∀ t, db.getTopic c.path = some t → c'.path = c.path → c.Tolerates c' t ∧ c'.Tolerates c t

/-- The memory is a list of the records that two calls leave one after the other, in any order
    of the calls and of the records. -/
def Sequential (db : TopicDB) (c c' : Call) (mem' : Memory) : Prop :=
  ∃ db', mem'.Represents db' ∧ (db'.Perm (c'.run (c.run db)) ∨ db'.Perm (c.run (c'.run db)))

/-- Whatever the order of their steps, two calls end without a fault, and as one after the
    other. -/
def Linearizable (m : Malloc) (mem : Memory) (db : TopicDB) (c c' : Call) : Prop :=
  Ends (step m) Thread.Done (Sequential db c c') ⟨mem, c.start, c'.start⟩

variable {m : Malloc} {mem mem' : Memory} {l l' : List (ℕ × Node)} {a : ℕ} {x y : Node}
  {path : CStr} {caller : Caller} {t : Thread} {c c' : Call} {db : TopicDB}

theorem Independent.symm (h : Independent db c c') : Independent db c' c :=
  ⟨fun hins => h.1 hins.symm, fun t ht hpath => (h.2 t (hpath ▸ ht) hpath.symm).symm⟩

theorem Linearizable.symm (h : Linearizable m mem db c c') : Linearizable m mem db c' c :=
  (Ends.swap h).mono fun _ ⟨db', hdb, hperm⟩ => ⟨db', hdb, hperm.symm⟩

/-! ## What a call leaves as it is -/

/-- No node is moved. -/
theorem Effect.frame_prefix (h : Effect c mem' l l') : frame l <+: frame l' := by
  cases h with
  | skip => exact List.prefix_rfl
  | @write l₁ l₂ a x y _ hx hy =>
    have hpath : y.path = x.path :=
      (congrArg TopicData.path hy).trans (Call.path_apply c x.record)
    simp [frame, hpath]
  | append => simp [frame]

/-- A call that adds nothing keeps the nodes and their paths. -/
theorem Effect.frame_eq (h : Effect c mem' l l') (hc : ¬c.Inserts (records l)) :
    frame l' = frame l := by
  cases h with
  | skip => rfl
  | @write l₁ l₂ a x y _ hx hy =>
    have hpath : y.path = x.path :=
      (congrArg TopicData.path hy).trans (Call.path_apply c x.record)
    simp [frame, hpath]
  | append heq hlen hfind =>
    exact absurd ⟨_, _, heq, hlen, findNode_eq_none.1 hfind⟩ hc

/-- Another call finds the same node, with another record only when it is the one written. -/
theorem Effect.find (h : Effect c mem' l l') (hfind : findNode l path = some (a, x)) :
    ∃ y, findNode l' path = some (a, y) ∧
      (c.path ≠ path ∧ y = x ∨ c.path = path ∧ y.record = c.apply x.record) := by
  cases h with
  | skip hnone =>
    refine ⟨x, hfind, .inl ⟨fun hp => ?_, rfl⟩⟩
    cases (hp ▸ hnone : findNode l path = none).symm.trans hfind
  | append heq _ hnone =>
    subst heq
    have hmem : path ∈ l.map place :=
      Keyed.find_isSome.1 (Option.isSome_iff_exists.2 ⟨_, hfind⟩)
    refine ⟨x, (Keyed.find_append_of_mem hmem).trans hfind, .inl ⟨fun hp => ?_, rfl⟩⟩
    cases (hp ▸ hnone : findNode l path = none).symm.trans hfind
  | @write l₁ l₂ b z y hl₁ hz hy =>
    have hpath : y.path = c.path :=
      ((congrArg TopicData.path hy).trans (Call.path_apply c z.record)).trans hz
    by_cases hp : c.path = path
    · subst hp
      have hfind' := hfind.symm.trans (Keyed.find_append_cons hl₁ hz)
      cases hfind'
      exact ⟨y, Keyed.find_append_cons hl₁ hpath, .inr ⟨rfl, hy⟩⟩
    · have hz' : place (b, z) ≠ path := fun heq => hp (hz.symm.trans heq)
      have hy' : place (b, y) ≠ path := fun heq => hp (hpath.symm.trans heq)
      exact ⟨x, (Keyed.find_replace_of_ne hy' hz').trans hfind, .inl ⟨hp, rfl⟩⟩

theorem find_none_of_frame (hk : frame l' = frame l) (h : findNode l path = none) :
    findNode l' path = none := by
  have hplaces : ∀ l, List.map place l = (frame l).map Prod.snd := fun l => by
    rw [frame, List.map_map]
    rfl
  rw [Keyed.find_eq_none, hplaces] at h ⊢
  rwa [hk]

/-! ## A call that is overtaken -/

theorem Searching.overtaken (hk : frame l <+: frame l') (h : Searching l caller t) :
    Searching l' caller t := by
  obtain ⟨k, hk⟩ := hk
  cases h with
  | getTopic => exact .getTopic
  | getFirst hne =>
    refine .getFirst fun hnil => hne ?_
    subst hnil
    exact List.map_eq_nil_iff.1 (List.append_eq_nil_iff.1 hk).1
  | getNext hk₁ hpath =>
    rw [hk₁, List.append_assoc, List.cons_append] at hk
    exact .getNext hk.symm hpath

theorem Setting.overtaken {data : Data} {n : ℕ} {topicMa dataMa : ℤ} (hk : frame l <+: frame l')
    (hfind : ∀ a x, findNode l path = some (a, x) → ∃ y, findNode l' path = some (a, y))
    (h : Setting l path data n topicMa dataMa t) : Setting l' path data n topicMa dataMa t := by
  cases h with
  | searching h => exact .searching (h.overtaken hk)
  | setSection h =>
    obtain ⟨y, hy⟩ := hfind _ _ h
    exact .setSection hy

/-- What `updateTopicInfo` reads is the same. -/
structure SameInfo (x y : Node) : Prop where
  length : dataLength y.record.data = dataLength x.record.data
  isSome : x.data.isSome → y.data.isSome
  data : dataLength x.record.data = 0 ∨ y.data = x.data
  dataMa : y.dataMa = x.dataMa

theorem SameInfo.refl (x : Node) : SameInfo x x := ⟨rfl, id, .inr rfl, rfl⟩

theorem UpdatingInfo.overtaken {topicMa : ℤ} (hk : frame l <+: frame l')
    (hfind : ∀ a x, findNode l path = some (a, x) →
      ∃ y, findNode l' path = some (a, y) ∧ SameInfo x y)
    (h : UpdatingInfo l path topicMa t) : UpdatingInfo l' path topicMa t := by
  cases h with
  | searching h => exact .searching (h.overtaken hk)
  | infoTest h =>
    obtain ⟨y, hy, -⟩ := hfind _ _ h
    exact .infoTest hy
  | infoLength h hsome =>
    obtain ⟨y, hy, hsame⟩ := hfind _ _ h
    exact .infoLength hy (hsame.isSome hsome)
  | infoData h hn =>
    obtain ⟨y, hy, hsame⟩ := hfind _ _ h
    exact .infoData hy (hn.trans hsame.length.symm)
  | infoMa h hn hd =>
    obtain ⟨y, hy, hsame⟩ := hfind _ _ h
    exact .infoMa hy (hn.trans hsame.length.symm)
      (hd.elim .inl fun hd => hsame.data.imp hn.trans fun hxy => hd.trans hxy.symm)
  | setting h hn hd hma ht =>
    obtain ⟨y, hy, hsame⟩ := hfind _ _ h
    refine .setting hy (hn.trans hsame.length.symm)
      (hd.elim .inl fun hd => hsame.data.imp hn.trans fun hxy => hd.trans hxy.symm)
      (hma.trans hsame.dataMa.symm) (ht.overtaken hk fun a x h => ?_)
    obtain ⟨y, hy, -⟩ := hfind a x h
    exact ⟨y, hy⟩

theorem UpdatingData.overtaken {dataMa : ℤ} {data : Option (List Byte)} {n : ℕ}
    (hk : frame l <+: frame l')
    (hfind : ∀ a x, findNode l path = some (a, x) →
      ∃ y, findNode l' path = some (a, y) ∧ y.topicMa = x.topicMa)
    (h : UpdatingData l path dataMa data n t) : UpdatingData l' path dataMa data n t := by
  cases h with
  | searching h => exact .searching (h.overtaken hk)
  | dataMa h =>
    obtain ⟨y, hy, -⟩ := hfind _ _ h
    exact .dataMa hy
  | setting h hma ht =>
    obtain ⟨y, hy, hsame⟩ := hfind _ _ h
    refine .setting hy (hma.trans hsame.symm) (ht.overtaken hk fun a x h => ?_)
    obtain ⟨y, hy, -⟩ := hfind a x h
    exact ⟨y, hy⟩

theorem DeletingData.overtaken (hk : frame l <+: frame l')
    (hfind : ∀ a x, findNode l path = some (a, x) → ∃ y, findNode l' path = some (a, y))
    (h : DeletingData l path t) : DeletingData l' path t := by
  cases h with
  | searching h => exact .searching (h.overtaken hk)
  | deleteSection h =>
    obtain ⟨y, hy⟩ := hfind _ _ h
    exact .deleteSection hy

theorem Adding.overtaken {topicMa : ℤ} (hk : frame l' = frame l) (h : Adding l path topicMa t) :
    Adding l' path topicMa t := by
  have hnil : l = [] → l' = [] := by
    rintro rfl
    exact List.map_eq_nil_iff.1 hk
  cases h with
  | addFirst => exact .addFirst
  | addNext h => exact .addNext (hk.trans h)
  | addSection h => exact .addSection (hk.trans h)
  | addHeadNext h => exact .addHeadNext (hnil h)
  | addHead h => exact .addHead (hnil h)

/-- What `updateTopicInfo` reads, when it tolerates what is written. -/
theorem sameInfo_of_tolerates {topicMa : ℤ} (hy : y.record = c.apply x.record)
    (h : (Call.updateTopicInfo path topicMa).Tolerates c x.record) : SameInfo x y := by
  have hdata : y.record.data = (c.apply x.record).data := congrArg TopicData.data hy
  have hma : y.dataMa = (c.apply x.record).dataMa := congrArg TopicData.dataMa hy
  have hsome : ∀ z : Node, z.data.isSome = z.record.data.isSome := fun z =>
    Option.isSome_map.symm
  cases c with
  | addTopicWEC path ma | updateTopicInfo path ma =>
    have hnone : x.record.data = none := h
    simp only [Call.apply, hnone] at hdata hma
    refine ⟨by rw [hdata, hnone]; rfl, ?_, .inl (by rw [hnone]; rfl), hma⟩
    rw [hsome, hnone]
    exact fun h => by cases h
  | updateTopicData path ma data n =>
    obtain ⟨hx, hcopy, himp, heq⟩ := h
    refine ⟨by rw [hdata, hx]; exact hcopy, ?_, .inl hx, hma.trans heq.symm⟩
    rw [hsome, hsome, hdata]
    exact himp
  | deleteTopicData path =>
    obtain ⟨hnone, heq⟩ := h
    refine ⟨by rw [hdata, hnone]; rfl, ?_, .inl (by rw [hnone]; rfl), hma.trans heq.symm⟩
    rw [hsome, hnone]
    exact fun h => by cases h

/-- A call that is overtaken by one it tolerates goes on as it would have begun after it. -/
theorem Valid.overtaken (h : Valid l c t) (heff : Effect c' mem' l l')
    (hins : ¬(c.Inserts (records l) ∧ c'.Inserts (records l)))
    (htol : ∀ r, (records l).getTopic c.path = some r → c'.path = c.path → c.Tolerates c' r) :
    Valid l' c t := by
  -- the other call appends at most, so that a node that was found stays where it is
  have hk := heff.frame_prefix
  have hnode : ∀ a x, findNode l c.path = some (a, x) → ∃ y, findNode l' c.path = some (a, y) ∧
      (y = x ∨ c.Tolerates c' x.record ∧ y.record = c'.apply x.record) := by
    intro a x hx
    have hrec : (records l).getTopic c.path = some x.record := by
      rw [getTopic_records, hx]
      rfl
    obtain ⟨y, hy, ⟨-, hsame⟩ | ⟨hpath, hwrite⟩⟩ := heff.find hx
    · exact ⟨y, hy, .inl hsame⟩
    · exact ⟨y, hy, .inr ⟨htol _ hrec hpath, hwrite⟩⟩
  cases h with
  | searching h => exact .searching (h.overtaken hk)
  | adding hfind hlen h =>
    -- two calls that both insert are excluded
    have hc' : ¬c'.Inserts (records l) := fun hc' =>
      hins ⟨⟨_, _, rfl, hlen, findNode_eq_none.1 hfind⟩, hc'⟩
    have hframe := heff.frame_eq hc'
    exact .adding (find_none_of_frame hframe hfind) hlen (h.overtaken hframe)
  | @addTopicWEC path topicMa _ hsome h =>
    obtain ⟨n, hn⟩ := Option.isSome_iff_exists.1 hsome
    obtain ⟨y, hy, -⟩ := hnode n.1 n.2 hn
    refine .addTopicWEC (Option.isSome_iff_exists.2 ⟨_, hy⟩) (h.overtaken hk fun a x hx => ?_)
    obtain ⟨y, hy, rfl | ⟨htol, hwrite⟩⟩ := hnode a x hx
    · exact ⟨y, hy, .refl y⟩
    · have htol' : (Call.updateTopicInfo path topicMa).Tolerates c' x.record := htol
      exact ⟨y, hy, sameInfo_of_tolerates hwrite htol'⟩
  | updateTopicInfo h =>
    refine .updateTopicInfo (h.overtaken hk fun a x hx => ?_)
    obtain ⟨y, hy, rfl | ⟨htol, hwrite⟩⟩ := hnode a x hx
    · exact ⟨y, hy, .refl y⟩
    · exact ⟨y, hy, sameInfo_of_tolerates hwrite htol⟩
  | updateTopicData h =>
    refine .updateTopicData (h.overtaken hk fun a x hx => ?_)
    obtain ⟨y, hy, rfl | ⟨htol, hwrite⟩⟩ := hnode a x hx
    · exact ⟨y, hy, rfl⟩
    · have hma : y.topicMa = (c'.apply x.record).topicMa := congrArg TopicData.topicMa hwrite
      refine ⟨y, hy, hma.trans ?_⟩
      cases c' with
      | addTopicWEC path ma | updateTopicInfo path ma => exact htol.symm
      | updateTopicData path ma data n | deleteTopicData path => rfl
  | deleteTopicData h =>
    refine .deleteTopicData (h.overtaken hk fun a x hx => ?_)
    obtain ⟨y, hy, -⟩ := hnode a x hx
    exact ⟨y, hy⟩

/-- After the one call, the other does what it does on the list the first has left. -/
theorem Effect.runs (heff : Effect c mem' l l') (hl' : mem'.Lists l') (h : Valid l' c' t) :
    Runs (step m) Thread.Done mem' (fun _ => True)
      (fun mem'' => mem''.Represents (c'.run (c.run (records l)))) t := by
  refine (h.runs hl').mono (fun _ _ => trivial) ?_
  rintro mem'' ⟨l'', hl'', heff'⟩
  rw [← heff.records_eq, ← heff'.records_eq]
  exact ⟨l'', hl'', rfl⟩

/-- Independent calls take effect one after the other. -/
theorem linearizable_of_independent (hl : mem.Lists l) (h : Independent (records l) c c') :
    Linearizable m mem (records l) c c' := by
  refine Ends.of_runs (runs_start hl c) (runs_start hl c') ?_ ?_
  · rintro mem' u ⟨l', hl', heff⟩ hu
    have hval := hu.overtaken heff (fun hins => h.1 hins.symm) fun r hr hpath =>
      (h.symm.2 r hr hpath).1
    exact (heff.runs hl' hval).mono (fun _ ht => ht) fun _ hrep => ⟨_, hrep, .inl (.refl _)⟩
  · rintro mem' u ⟨l', hl', heff⟩ hu
    have hval := hu.overtaken heff h.1 fun r hr hpath => (h.2 r hr hpath).1
    exact (heff.runs hl' hval).mono (fun _ ht => ht) fun _ hrep => ⟨_, hrep, .inr (.refl _)⟩

/-! ## Calls that are not independent -/

/-- A thread comes to another state without writing. -/
abbrev Reads (m : Malloc) (mem : Memory) (t t' : Thread) : Prop :=
  Relation.ReflTransGen (Alone (step m) Thread.Done) (mem, t) (mem, t')

/-- One call stops, and the other one runs. -/
theorem Linearizable.overtake (h : Linearizable m mem (records l) c c') (hl : mem.Lists l)
    (ht : Reads m mem c.start t) :
    ∃ mem' l' u, mem'.Lists l' ∧ Effect c' mem' l l' ∧ u.Done ∧
      Ends (step m) Thread.Done (Sequential (records l) c c') ⟨mem', t, u⟩ := by
  obtain ⟨mem', u, hu, hdone, l', hl', heff⟩ := (runs_start hl c').exists_alone
  exact ⟨mem', l', u, hl', heff, hdone, Ends.overtake h ht hu⟩

/-- `getTopic` on its own. -/
theorem alone_found (hl : mem.Lists l) (caller : Caller)
    (hfind : findNode l caller.path = some (a, x)) :
    Reads m mem (.getTopic caller) (caller.returned (some a)) :=
  found_of_find hfind ▸ (Searching.getTopic.silent hl).alone

/-- The thread goes on with a step that changes nothing. -/
theorem Reads.tail {t₁ t₂ : Thread} (h : Reads m mem t t₁) (hd : ¬t₁.Done)
    (hs : step m mem t₁ = .ok (mem, t₂)) : Reads m mem t t₂ :=
  Relation.ReflTransGen.tail h ⟨hd, hs⟩

section

variable {topicMa : ℤ} (hl : mem.Lists l) (hfind : findNode l path = some (a, x))
  (hc : c = .addTopicWEC path topicMa ∨ c = .updateTopicInfo path topicMa)
include hl hfind hc

/-- A call of `updateTopicInfo` finds the node. -/
theorem alone_infoTest : Reads m mem c.start (.infoTest path topicMa a) := by
  have hinfo := alone_found (m := m) hl (.updateTopicInfo path topicMa) hfind
  rcases hc with rfl | rfl
  · exact (alone_found hl (.addTopicWEC path topicMa) hfind).trans hinfo
  · exact hinfo

/-- It is about to take the length of the data. -/
theorem alone_infoLength (hsome : x.data.isSome) :
    Reads m mem c.start (.infoLength path topicMa a) := by
  obtain ⟨cell, hcell, rfl⟩ := hl.load hfind
  obtain ⟨s, hs⟩ := Option.isSome_iff_exists.1 hsome
  refine Reads.tail (alone_infoTest hl hfind hc) (not_done fun _ h => by cases h) ?_
  rw [step, hcell]
  simp only [bind, Except.bind, hs]

/-- It has read what it writes back. -/
theorem alone_setTopic : Reads m mem c.start
    (.getTopic (.setTopic path (.ptr x.data) (dataLength x.record.data) topicMa x.dataMa)) := by
  have hlength : Reads m mem c.start (.infoData path topicMa a (dataLength x.record.data)) := by
    cases hd : x.data with
    | none =>
      obtain ⟨cell, hcell, rfl⟩ := hl.load hfind
      refine Reads.tail (alone_infoTest hl hfind hc) (not_done fun _ h => by cases h) ?_
      rw [step, hcell]
      simp only [bind, Except.bind, hd, Node.record]
      rfl
    | some s =>
      have hlen := alone_infoLength (m := m) hl hfind hc (hd ▸ rfl)
      obtain ⟨cell, hcell, rfl⟩ := hl.load hfind
      obtain ⟨l₁, l₂, rfl, -, -⟩ := exists_split hfind
      refine Reads.tail hlen (not_done fun _ h => by cases h) ?_
      rw [step, hcell]
      simp only [bind, Except.bind, hd, if_neg (hl.notMem_freed hd), Node.record]
      rfl
  obtain ⟨cell, hcell, rfl⟩ := hl.load hfind
  have hdata : Reads m mem c.start
      (.infoMa path topicMa a (dataLength cell.val.record.data) cell.val.data) := by
    refine Reads.tail hlength (not_done fun _ h => by cases h) ?_
    rw [step, hcell]
    rfl
  refine Reads.tail hdata (not_done fun _ h => by cases h) ?_
  rw [step, hcell]
  rfl

/-- The other call may not take away data that was there before its length was taken. -/
theorem length_overtaken (h : Linearizable m mem (records l) c c') (hpath : c'.path = path)
    (hsome : x.record.data.isSome) : (c'.apply x.record).data.isSome := by
  have hx : x.data.isSome := Option.isSome_map.symm.trans hsome
  obtain ⟨mem', l', u, hl', heff, hu, hends⟩ := h.overtake hl (alone_infoLength hl hfind hc hx)
  obtain ⟨y, hy, ⟨hne, -⟩ | ⟨-, hrec⟩⟩ := heff.find hfind
  · exact absurd hpath hne
  · rw [← hrec]
    by_contra hnone
    have hynone : y.data = none := by
      rwa [Node.record, Option.isSome_map, Option.not_isSome_iff_eq_none] at hnone
    obtain ⟨cell, hcell, rfl⟩ := hl'.load hy
    refine hends.not_faulty ⟨.nullDeref, .inl ⟨(not_done fun _ h => by cases h), ?_⟩⟩
    rw [step, hcell]
    simp only [bind, Except.bind, hynone]

end

/-- There is one list in a memory. -/
theorem Memory.Lists.unique (hl : mem.Lists l) (hl' : mem.Lists l') : l = l' :=
  hl.segment.unique hl'.segment

/-- What a call that has been overtaken before the section of `setTopic` writes is what the two
    calls come to one after the other. -/
theorem setTopic_overtaken (h : Linearizable m mem (records l) c c') (hl : mem.Lists l)
    (hfind : findNode l c.path = some (a, x)) (hpath : c'.path = c.path) {data : Data} {n : ℕ}
    {topicMa dataMa : ℤ}
    (ht : Reads m mem c.start (.getTopic (.setTopic c.path data n topicMa dataMa))) :
    ∃ mem' bytes, data.source mem' n = .ok bytes ∧
      (∀ s, x.data = some s → (c'.apply x.record).data.isSome → s.addr ∈ mem'.freed) ∧
      ({ x.record with data := bytes.map fun b => CStr.read (b.take n), topicMa, dataMa } =
          c'.apply (c.apply x.record) ∨
        { x.record with data := bytes.map fun b => CStr.read (b.take n), topicMa, dataMa } =
          c.apply (c'.apply x.record)) := by
  obtain ⟨mem', l', u, hl', heff, hu, hends⟩ := h.overtake hl ht
  cases heff with
  | skip hnone => cases (hpath ▸ hnone : findNode l c.path = none).symm.trans hfind
  | append heq _ hnone =>
    subst heq
    cases (hpath ▸ hnone : findNode l c.path = none).symm.trans hfind
  | @write l₁ l₂ b z y hl₁ hz hy hfreed =>
    rw [hpath] at hl₁ hz
    cases hfind.symm.trans (Keyed.find_append_cons hl₁ hz)
    have hypath : y.path = c.path :=
      ((congrArg TopicData.path hy).trans (Call.path_apply c' x.record)).trans hz
    have hfind' : findNode (l₁ ++ (a, y) :: l₂) c.path = some (a, y) :=
      Keyed.find_append_cons hl₁ hypath
    -- the left thread comes to its section
    have hsection : Ends (step m) Thread.Done (Sequential (records (l₁ ++ (a, x) :: l₂)) c c')
        ⟨mem', .setSection a data n topicMa dataMa, u⟩ := hends.of_moves (moves_left
      (alone_found hl' (.setTopic c.path data n topicMa dataMa) hfind') u)
    have hnot : ¬(Thread.setSection a data n topicMa dataMa).Done := not_done fun _ h => by cases h
    cases hread : data.source mem' n with
    | error f =>
      obtain ⟨cell, hcell, -⟩ := hl'.load hfind'
      refine absurd ⟨f, .inl ⟨hnot, ?_⟩⟩ hsection.not_faulty
      simp only [step, setTopicSection, hcell, hread, bind, Except.bind]
    | ok bytes =>
      obtain ⟨mem'', w, hset, hl'', hw, -⟩ := setTopicSection_ok hl' hread topicMa dataMa
      have hstep : Alone (step m) Thread.Done (mem', .setSection a data n topicMa dataMa)
          (mem'', .done true) := by
        refine ⟨hnot, ?_⟩
        rw [step, hset]
        rfl
      obtain ⟨db', ⟨l₃, hl₃, rfl⟩, hperm⟩ :=
        (hsection.of_moves (.single (.left hstep))).final ⟨true, rfl⟩ hu
      obtain rfl := hl''.unique hl₃
      refine ⟨mem', bytes, hread, fun s hs hsome => hfreed s hs ?_, ?_⟩
      · rw [← hy] at hsome
        exact Option.isSome_map.symm.trans hsome
      · have hserial : ∀ c₁ c₂ : Call, c₁.path = c.path → c₂.path = c.path →
            c₂.run (c₁.run (records (l₁ ++ (a, x) :: l₂))) =
              records l₁ ++ c₂.apply (c₁.apply x.record) :: records l₂ := by
          intro c₁ c₂ h₁ h₂
          have hpaths : c.path ∉ (records l₁).paths := paths_records l₁ ▸ hl₁
          rw [records_append_cons, Call.run_append_cons (h₁ ▸ hpaths) (hz.trans h₁.symm),
            Call.run_append_cons (h₂ ▸ hpaths)
              ((Call.path_apply c₁ x.record).trans (hz.trans h₂.symm))]
        have hw' : w.record = { x.record with
            data := bytes.map fun b => CStr.read (b.take n), topicMa, dataMa } :=
          hw.trans (congrArg (fun p => (⟨p, _, topicMa, dataMa⟩ : TopicData))
            (hypath.trans hz.symm))
        rw [records_append_cons, hserial c c' rfl hpath, hserial c' c hpath rfl, hw'] at hperm
        exact hperm.imp Keyed.eq_of_perm Keyed.eq_of_perm

/-- Calls that are linearizable tolerate each other. -/
theorem tolerates_of_linearizable (h : Linearizable m mem (records l) c c') (hl : mem.Lists l)
    (hfind : findNode l c.path = some (a, x)) (hpath : c'.path = c.path) :
    c.Tolerates c' x.record := by
  have hinfo : ∀ path topicMa, c = .addTopicWEC path topicMa ∨ c = .updateTopicInfo path topicMa →
      (Call.updateTopicInfo path topicMa).Tolerates c' x.record := by
    intro path topicMa hc
    have happly : ∀ t, c.apply t = { t with data := TopicDB.normData t.data, topicMa } := by
      rcases hc with rfl | rfl <;> exact fun _ => rfl
    have hcpath : c.path = path := by rcases hc with rfl | rfl <;> rfl
    subst hcpath
    have hlength := length_overtaken hl hfind hc h hpath
    obtain ⟨mem', bytes, hread, hfreed, hres⟩ :=
      setTopic_overtaken h hl hfind hpath (alone_setTopic hl hfind hc)
    -- without new data, the old data may have stayed, and else it has been freed
    have hzero : (c'.apply x.record).data.isSome → dataLength x.record.data = 0 := by
      intro hsome
      by_contra hpos
      cases hd : x.data with
      | none => exact hpos (congrArg (fun d : Option Str => dataLength (d.map Str.text)) hd)
      | some s =>
        rw [Data.source, if_pos (Nat.pos_of_ne_zero hpos), hd, Data.read,
          if_pos (hfreed s hd hsome)] at hread
        cases hread
    simp only [happly] at hres
    cases c' with
    | addTopicWEC p ma | updateTopicInfo p ma =>
      -- data of the length 0 would be gone, and other data freed
      by_contra hd
      have hsome := hlength (Option.isSome_iff_ne_none.2 hd)
      exact Option.isSome_iff_ne_none.1 hsome (normData_eq_none.2 (hzero hsome))
    | deleteTopicData p =>
      refine ⟨?_, hres.elim (congrArg TopicData.dataMa) (congrArg TopicData.dataMa)⟩
      by_contra hd
      cases hlength (Option.isSome_iff_ne_none.2 hd)
    | updateTopicData p ma data n =>
      have hx : dataLength x.record.data = 0 := by
        by_cases hsome : x.record.data.isSome
        · exact hzero (hlength hsome)
        · rw [Option.not_isSome_iff_eq_none] at hsome
          rw [hsome]
          rfl
      rw [hx] at hread hres
      cases hread
      refine ⟨hx, ?_, hlength, hres.elim (congrArg TopicData.dataMa) (congrArg TopicData.dataMa)⟩
      rcases hres with hres | hres
      · have hcopy : none = copyData data n := congrArg TopicData.data hres
        rw [← hcopy]
        rfl
      · exact normData_eq_none.1 (congrArg TopicData.data hres).symm
  cases c with
  | addTopicWEC path topicMa => exact hinfo path topicMa (.inl rfl)
  | updateTopicInfo path topicMa => exact hinfo path topicMa (.inr rfl)
  | deleteTopicData path => trivial
  | updateTopicData path dataMa data n =>
    obtain ⟨cell, hcell, rfl⟩ := hl.load hfind
    have ht : Reads m mem (Call.updateTopicData path dataMa data n).start
        (.getTopic (.setTopic path (.buf data) n cell.val.topicMa dataMa)) := by
      refine Reads.tail (alone_found hl (.updateTopicData path dataMa data n) hfind)
        (not_done fun _ h => by cases h) ?_
      simp only [Caller.returned, step, hcell, bind, Except.bind]
    obtain ⟨mem', bytes, -, -, hres⟩ := setTopic_overtaken h hl hfind hpath ht
    cases c' with
    | addTopicWEC p ma | updateTopicInfo p ma =>
      exact hres.elim (congrArg TopicData.topicMa) (congrArg TopicData.topicMa)
    | updateTopicData p ma data n | deleteTopicData p => trivial

/-! ## Two calls that add a record -/

/-- Two records are added for two paths, and one for one path. -/
theorem length_run_run {path' : CStr} {topicMa topicMa' : ℤ} (h : db.getTopic path = none)
    (h' : db.getTopic path' = none) (hlen : 0 < path.length) (hlen' : 0 < path'.length) :
    ((Call.addTopicWEC path' topicMa').run ((Call.addTopicWEC path topicMa).run db)).length =
      db.length + if path = path' then 1 else 2 := by
  rw [Call.run_of_inserts h hlen]
  split_ifs with heq
  · subst heq
    have hfind : (db ++ [(newNode path topicMa).record]).getTopic
        (Call.addTopicWEC path topicMa').path = some (newNode path topicMa).record :=
      Keyed.find_append_cons (TopicDB.getTopic_eq_none.1 h) rfl
    rw [Call.run_of_some hfind, Keyed.length_modify, List.length_append, List.length_singleton]
  · have hfind : (db ++ [(newNode path topicMa).record]).getTopic path' = none := by
      rw [TopicDB.getTopic_eq_none, TopicDB.paths, List.map_append, List.mem_append, not_or]
      refine ⟨TopicDB.getTopic_eq_none.1 h', fun hmem => heq ?_⟩
      exact (List.mem_singleton.1 hmem).symm
    rw [Call.run_of_inserts hfind hlen', List.length_append, List.length_append,
      List.length_singleton, List.length_singleton]

/-- The last step of `addTopic`, when other nodes have been linked after the one it has found:
    they are lost. -/
theorem addLast_cut {l₂ : List (ℕ × Node)} {topicMa : ℤ} (hl : mem.Lists (l ++ l₂)) :
    ∃ mem' b, step m mem (addLast l path topicMa) = .ok (mem', .done true) ∧
      Segment mem'.heap mem'.sPtr (l ++ [(b, newNode path topicMa)]) none := by
  rcases List.eq_nil_or_concat' l with rfl | ⟨l, ⟨a, x⟩, rfl⟩
  · exact ⟨_, m.ptr mem.heap.keys, rfl, .cons (Finmap.lookup_insert mem.heap) .nil⟩
  · have hk : frame (l ++ [(a, x)]) = frame l ++ [(a, x.path)] := List.map_append
    rw [List.append_assoc] at hl
    obtain ⟨c, hc, -⟩ := hl.cell
    rw [addLast_of_concat hk, step, load_of_lookup hc]
    refine ⟨_, m.ptr mem.heap.keys, rfl, ?_⟩
    rw [List.append_assoc]
    exact hl.segment.cut (m.lookup_ptr mem.heap) hc _

/-- The nodes in the end, when one of two calls that add a record has been overtaken. -/
theorem length_of_ends {path' : CStr} {topicMa topicMa' : ℤ}
    (h : db.getTopic path = none) (h' : db.getTopic path' = none) (hlen : 0 < path.length)
    (hlen' : 0 < path'.length) {u : Thread} (hu : u.Done) {b : Bool}
    (hends : Ends (step m) Thread.Done
      (Sequential db (.addTopicWEC path topicMa) (.addTopicWEC path' topicMa')) ⟨mem, t, u⟩)
    (ht : ¬t.Done) (hstep : step m mem t = .ok (mem', .done b))
    (hs : Segment mem'.heap mem'.sPtr l none) :
    l.length = db.length + if path = path' then 1 else 2 := by
  obtain ⟨db', ⟨l', hl', rfl⟩, hperm⟩ :=
    (hends.of_moves (.single (.left ⟨ht, hstep⟩))).final ⟨b, rfl⟩ hu
  obtain rfl := hs.unique hl'.segment
  have hrec : (records l).length = l.length := List.length_map _
  rcases hperm with hperm | hperm
  · rw [← hrec, hperm.length_eq, length_run_run h h' hlen hlen']
  · rw [← hrec, hperm.length_eq, length_run_run h' h hlen' hlen]
    simp only [eq_comm]

/-- Two calls that both add a record. -/
theorem not_linearizable_of_inserts (hl : mem.Lists l) (hc : c.Inserts (records l))
    (hc' : c'.Inserts (records l)) : ¬Linearizable m mem (records l) c c' := by
  obtain ⟨path, topicMa, rfl, hlen, hnone⟩ := hc
  obtain ⟨path', topicMa', rfl, hlen', hnone'⟩ := hc'
  intro h
  have hrec : (records l).length = l.length := List.length_map _
  -- the left call has found that its path is not there
  have hfirst : Reads m mem (Call.addTopicWEC path topicMa).start (.addFirst path topicMa) := by
    have hfound : found l path = none := by
      rw [found, findNode_eq_none.2 hnone, Option.map_none]
    have hret : (Caller.addTopicWEC path topicMa).returned (found l path) =
        .addFirst path topicMa := by
      rw [hfound]
      exact if_pos hlen
    exact hret ▸ (Searching.getTopic.silent hl).alone
  have happend : ∀ {mem' l'}, Effect (.addTopicWEC path' topicMa') mem' l l' →
      ∃ b, l' = l ++ [(b, newNode path' topicMa')] := by
    intro mem' l' heff
    cases heff with
    | skip _ hno => exact absurd ⟨path', topicMa', rfl, hlen', hnone'⟩ hno
    | write hl₁ hx =>
      cases (findNode_eq_none.2 hnone').symm.trans (Keyed.find_append_cons hl₁ hx)
    | append heq =>
      cases heq
      exact ⟨_, rfl⟩
  by_cases heq : path = path'
  · -- it adds a record after the one for the same path
    obtain ⟨mem', l', u, hl', heff, hu, hends⟩ := h.overtake hl hfirst
    obtain ⟨b, rfl⟩ := happend heff
    have hlast := Adding.last (l ++ [(b, newNode path' topicMa')]) path topicMa
    obtain ⟨mem'', b', hstep, hl''⟩ := addLast_step hl'
    have hlength := length_of_ends hnone hnone' hlen hlen' hu
      (hends.of_moves (moves_left (Adding.addFirst.silent hl').alone u)) hlast.not_done hstep
      hl''.segment
    rw [if_pos heq, hrec, List.length_append, List.length_append, List.length_singleton,
      List.length_singleton] at hlength
    omega
  · -- it has found the last node as well, and links its own in place of the other one
    obtain ⟨mem', l', u, hl', heff, hu, hends⟩ :=
      h.overtake hl (hfirst.trans (Adding.addFirst.silent hl).alone)
    obtain ⟨b, rfl⟩ := happend heff
    obtain ⟨mem'', b', hstep, hs⟩ := addLast_cut hl'
    have hlength := length_of_ends hnone hnone' hlen hlen' hu hends
      (Adding.last l path topicMa).not_done hstep hs
    rw [if_neg heq, hrec, List.length_append, List.length_singleton] at hlength
    omega

/-! ## The condition -/

/-- Two calls on a list are linearizable if and only if they are independent. -/
theorem linearizable_iff (m : Malloc) (hmem : mem.Represents db) (c c' : Call) :
    Linearizable m mem db c c' ↔ Independent db c c' := by
  obtain ⟨l, hl, rfl⟩ := hmem
  refine ⟨fun h => ⟨fun hins => not_linearizable_of_inserts hl hins.1 hins.2 h, ?_⟩,
    linearizable_of_independent hl⟩
  intro r hr hpath
  rw [getTopic_records] at hr
  obtain ⟨⟨a, x⟩, hfind, rfl⟩ := Option.map_eq_some_iff.1 hr
  exact ⟨tolerates_of_linearizable h hl hfind hpath,
    tolerates_of_linearizable h.symm hl (hpath ▸ hfind) hpath.symm⟩

/-- Publishing to a topic and clearing its data. -/
theorem linearizable_publish_clear : Linearizable Malloc.above
    { heap := Finmap.singleton 1 ⟨newNode (CStr.lit "ps/a") 0, none⟩, sPtr := some 1, freed := ∅,
      brk := 0 }
    [(newNode (CStr.lit "ps/a") 0).record]
    (.updateTopicData (CStr.lit "ps/a") 9 (some (ascii "x")) 1)
    (.deleteTopicData (CStr.lit "ps/a")) := by
  refine (linearizable_iff _ ⟨[(1, newNode (CStr.lit "ps/a") 0)], ⟨?_, List.nodup_nil, ?_, ?_⟩,
    rfl⟩ _ _).2 ⟨?_, fun _ _ _ => ⟨trivial, trivial⟩⟩
  · exact .cons Finmap.lookup_singleton_eq .nil
  · exact fun s hs => absurd hs List.not_mem_nil
  · exact fun s hs => absurd hs (Finset.notMem_empty s)
  · rintro ⟨⟨_, _, heq, -⟩, -⟩
    cases heq

/-- Two topics are added to the empty list, and one of them is lost. -/
theorem inserted_topic_lost : ∃ k,
    Relation.ReflTransGen (Moves (step Malloc.above) Thread.Done)
      ⟨{ heap := ∅, sPtr := none, freed := ∅, brk := 0 },
        (Call.addTopicWEC (CStr.lit "ps/a") 1).start,
        (Call.addTopicWEC (CStr.lit "ps/b") 2).start⟩ k ∧
    k.left.Done ∧ k.right.Done ∧ ∃ db', k.shared.Represents db' ∧
      ¬(∀ t, t ∈ db' ↔ t ∈ (Call.addTopicWEC (CStr.lit "ps/b") 2).run
        ((Call.addTopicWEC (CStr.lit "ps/a") 1).run [])) ∧
      ¬(∀ t, t ∈ db' ↔ t ∈ (Call.addTopicWEC (CStr.lit "ps/a") 1).run
        ((Call.addTopicWEC (CStr.lit "ps/b") 2).run [])) := by
  let heap₁ : Heap Node := (∅ : Heap Node).insert (Malloc.above.ptr (∅ : Heap Node).keys)
    ⟨newNode (CStr.lit "ps/b") 2, none⟩
  let mem : Memory :=
    { heap := heap₁.insert (Malloc.above.ptr heap₁.keys) ⟨newNode (CStr.lit "ps/a") 1, none⟩,
      sPtr := some (Malloc.above.ptr heap₁.keys), freed := ∅, brk := 0 }
  have hmem : mem.Represents [⟨CStr.lit "ps/a", none, 1, 0⟩] :=
    ⟨[(_, newNode (CStr.lit "ps/a") 1)], ⟨.cons (Finmap.lookup_insert heap₁) .nil,
      List.nodup_nil, fun s hs => absurd hs List.not_mem_nil,
      fun s hs => absurd hs (Finset.notMem_empty s)⟩, rfl⟩
  -- the left call reads that the list is empty, and writes when the right one has written
  have hmoves : Relation.ReflTransGen (Moves (step Malloc.above) Thread.Done)
      ⟨{ heap := ∅, sPtr := none, freed := ∅, brk := 0 },
        (Call.addTopicWEC (CStr.lit "ps/a") 1).start,
        (Call.addTopicWEC (CStr.lit "ps/b") 2).start⟩ ⟨mem, .done true, .done true⟩ := by
    refine .head (.left ⟨?_, rfl⟩) (.head (.left ⟨?_, rfl⟩) (.head (.left ⟨?_, rfl⟩)
      (.head (.right ⟨?_, rfl⟩) (.head (.right ⟨?_, rfl⟩) (.head (.right ⟨?_, rfl⟩)
      (.head (.right ⟨?_, rfl⟩) (.single (.left ⟨?_, rfl⟩))))))))
    all_goals exact not_done fun _ h => by cases h
  have hlost : (⟨CStr.lit "ps/b", none, 2, 0⟩ : TopicData) ∉
      [(⟨CStr.lit "ps/a", none, 1, 0⟩ : TopicData)] := by decide
  refine ⟨_, hmoves, ⟨true, rfl⟩, ⟨true, rfl⟩, _, hmem, fun h => hlost ((h _).2 ?_),
    fun h => hlost ((h _).2 ?_)⟩ <;> decide

end Threads

end CoapBroker
