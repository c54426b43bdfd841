import Qse.Sttp.RoundTrip

/-!
# What a reset leaves behind

`reset` keeps the token and the command that is under construction, so that not every object is like
a new one behind it.
-/

namespace Qse.SttpFeed

open Fallible

variable {ct : Ctype} {env : Env}

def feedAll (ct : Ctype) (env : Env) : List (Bool × List UInt8) → SttpM (List (Option ℕ))
  | [] => pure []
  | (rem, data) :: feeds => do
    let r ← attempt (feed ct env rem data)
    let rs ← feedAll ct env feeds
    pure (r :: rs)

/-- Whatever is around the object and is fed, it does what a new one does. -/
def LikeNew (ct : Ctype) (s : Sttp) : Prop :=
  ∀ env feeds, (feedAll ct env feeds s).1 = (feedAll ct env feeds (Sttp.new s.world)).1 ∧
    (feedAll ct env feeds s).2.world.handled =
      (feedAll ct env feeds (Sttp.new s.world)).2.world.handled

def Same (s t : Sttp) : Prop :=
  ∃ w n e b, t = { s with wrBuf := w, wrArgCount := n, errinf := e, broken := b }

def Nameless : List ReadState → Prop
  | [] => True
  | .inName :: _ => True
  | _ => False

/-- Objects that differ in that and in the name of a command that has none yet. -/
def Alike (s t : Sttp) : Prop :=
  ∃ name w n e b, t = { s with
      command := { s.command with name := name }
      wrBuf := w, wrArgCount := n, errinf := e, broken := b } ∧
    (¬Nameless s.stack → name = s.command.name)

variable {s t : Sttp}

theorem Same.alike (h : Same s t) : Alike s t := by
  obtain ⟨w, n, e, b, rfl⟩ := h
  exact ⟨s.command.name, w, n, e, b, rfl, fun _ => rfl⟩

theorem Alike.same (h : Alike s t) (hname : ¬Nameless s.stack) : Same s t := by
  obtain ⟨name, w, n, e, b, rfl, hkeep⟩ := h
  rw [hkeep hname]
  exact ⟨w, n, e, b, rfl⟩

theorem Alike.stack (h : Alike s t) : s.stack = t.stack := by
  obtain ⟨name, w, n, e, b, rfl, -⟩ := h
  rfl

theorem Alike.rdLo (h : Alike s t) : s.rdLo = t.rdLo := by
  obtain ⟨name, w, n, e, b, rfl, -⟩ := h
  rfl

theorem Alike.world (h : Alike s t) : s.world = t.world := by
  obtain ⟨name, w, n, e, b, rfl, -⟩ := h
  rfl

theorem twin_alike {f : Sttp → Sttp} (hf : ∀ (s : Sttp) name w n e b, ∃ e' b', f { s with
        command := { s.command with name := name }
        wrBuf := w, wrArgCount := n, errinf := e, broken := b } = { f s with
        command := { (f s).command with name := name }
        wrBuf := w, wrArgCount := n, errinf := e', broken := b' })
    (hname : ∀ s, (f s).command.name = s.command.name) (hstack : ∀ s, (f s).stack = s.stack) :
    Twin Alike Alike (change f) := by
  refine twin_change ?_
  rintro s t ⟨name, w, n, e, b, rfl, hkeep⟩
  obtain ⟨e', b', hf⟩ := hf s name w n e b
  refine ⟨name, w, n, e', b', hf, ?_⟩
  rw [hstack s, hname s]
  exact hkeep

theorem twin_same {f : Sttp → Sttp} (hf : ∀ (s : Sttp) w n e b, Same (f s)
      (f { s with wrBuf := w, wrArgCount := n, errinf := e, broken := b })) :
    Twin Same Same (change f) := by
  refine twin_change ?_
  rintro s t ⟨w, n, e, b, rfl⟩
  exact hf s w n e b

variable {α : Type}

theorem alike_of_same {x : SttpM α} {R : Sttp → Sttp → Prop} (hx : Twin R Same x) :
    Twin R Alike x :=
  hx.mono fun _ _ => Same.alike

theorem failWith_same (num : Errnum) (text : String) (params : List UInt32) :
    Twin Same Same (failWith num text params : SttpM α) :=
  (twin_same fun _ w n _ b => ⟨w, n, _, b, rfl⟩).bind (fun _ => twin_fail) fun _ _ h => h

theorem failWith_alike (num : Errnum) (text : String) (params : List UInt32) :
    Twin Alike Alike (failWith num text params : SttpM α) := by
  have hnote : Twin Alike Alike
      (change fun s => { s with errinf := some ⟨num, text, params⟩ } : SttpM PUnit) :=
    twin_alike (fun _ _ _ _ _ b => ⟨_, b, rfl⟩) (fun _ => rfl) fun _ => rfl
  exact hnote.next twin_fail

theorem undefinedBehavior_alike : Twin Alike Alike (undefinedBehavior : SttpM α) := by
  have hnote : Twin Alike Alike (change fun s => { s with broken := true } : SttpM PUnit) :=
    twin_alike (fun _ _ _ _ e _ => ⟨e, _, rfl⟩) (fun _ => rfl) fun _ => rfl
  exact hnote.next twin_fail

theorem tick_same : Twin Same Same (change fun s =>
    { s with world := { s.world with clock := s.world.clock + 1 } } : SttpM PUnit) :=
  twin_same fun _ w n e b => ⟨w, n, e, b, rfl⟩

theorem pushReadState_same (state : ReadState) : Twin Same Same (pushReadState env state) := by
  refine Twin.ask ?_ fun clock => tick_same.bind (fun _ => ?_) fun _ _ h => h
  · rintro s t ⟨w, n, e, b, rfl⟩
    rfl
  · split
    · exact twin_same fun _ w n e b => ⟨w, n, e, b, rfl⟩
    · exact failWith_same _ _ _

theorem pushReadState_inName : Twin Alike Alike (pushReadState env .inName) := by
  refine Twin.ask (fun _ _ h => by rw [h.world]) fun clock => ?_
  have htick : Twin Alike Alike (change fun s =>
      { s with world := { s.world with clock := s.world.clock + 1 } } : SttpM PUnit) :=
    twin_alike (fun _ _ _ _ e b => ⟨e, b, rfl⟩) (fun _ => rfl) fun _ => rfl
  refine htick.bind (fun _ => ?_) fun _ _ h => h
  split
  · refine twin_change ?_
    rintro s t ⟨name, w, n, e, b, rfl, -⟩
    exact ⟨name, w, n, e, b, rfl, fun h => absurd trivial h⟩
  · exact failWith_alike _ _ _

theorem popReadState_same : Twin Same Same popReadState :=
  twin_same fun _ w n e b => ⟨w, n, e, b, rfl⟩

theorem setTop_same (state : ReadState) : Twin Same Same (setTop state) :=
  twin_same fun _ w n e b => ⟨w, n, e, b, rfl⟩

theorem addCharToToken_same (c : UInt32) : Twin Same Same (addCharToToken c) :=
  twin_same fun _ w n e b => ⟨w, n, e, b, rfl⟩

theorem addCharToToken_alike (c : UInt32) : Twin Alike Alike (addCharToToken c) :=
  twin_alike (fun _ _ _ _ e b => ⟨e, b, rfl⟩) (fun _ => rfl) fun _ => rfl

theorem clearToken_same : Twin Same Same clearToken :=
  twin_same fun _ w n e b => ⟨w, n, e, b, rfl⟩

theorem addArg_same : Twin Same Same addArg :=
  twin_same fun _ w n e b => ⟨w, n, e, b, rfl⟩

theorem setName_same : Twin Alike Same setName := by
  refine twin_change ?_
  rintro s t ⟨name, w, n, e, b, rfl, -⟩
  exact ⟨w, n, e, b, rfl⟩

theorem dispatch_same : Twin Same Same (dispatch env) := by
  refine Twin.ask ?_ fun handled => Twin.ask ?_ fun command => ?_
  · rintro s t ⟨w, n, e, b, rfl⟩
    rfl
  · rintro s t ⟨w, n, e, b, rfl⟩
    rfl
  · refine (twin_same fun _ w n e b => ⟨w, n, e, b, rfl⟩).bind (fun _ => ?_) fun _ _ h => h
    split
    · exact twin_pure _
    · exact twin_fail

theorem handleStartChar_alike (c : UInt32) : Twin Alike Alike (handleStartChar ct env c) := by
  unfold handleStartChar
  split
  · refine (addCharToToken_alike c).bind (fun _ => ?_) fun _ _ h => h
    exact pushReadState_inName.bind (fun _ => twin_pure _) fun _ _ h => h
  · exact failWith_alike _ _ _

theorem handleNameChar_alike (c : UInt32) : Twin Alike Alike (handleNameChar ct env c) := by
  unfold handleNameChar
  split
  · exact (addCharToToken_alike c).bind (fun _ => twin_pure _) fun _ _ h => h
  split
  · refine setName_same.bind (fun _ => alike_of_same ?_) fun _ _ => Same.alike
    exact clearToken_same.next (popReadState_same.next
      ((pushReadState_same _).next (twin_pure _)))
  · split
    · refine setName_same.bind (fun _ => alike_of_same ?_) fun _ _ => Same.alike
      exact clearToken_same.next (popReadState_same.next (dispatch_same.next (twin_pure _)))
    · exact failWith_alike _ _ _

theorem addArgIf_same (gotValue : Bool) : Twin Same Same (addArgIf gotValue) := by
  unfold addArgIf
  split
  · exact addArg_same
  · exact twin_pure _

theorem handleParamListChar_same (gotValue : Bool) (c : UInt32) :
    Twin Same Same (handleParamListChar ct env gotValue c) := by
  unfold handleParamListChar
  split
  · refine Twin.ask ?_ fun args => ?_
    · rintro s t ⟨w, n, e, b, rfl⟩
      rfl
    split
    · exact (addArgIf_same gotValue).next (clearToken_same.next (popReadState_same.next
        (dispatch_same.next (twin_pure _))))
    · exact failWith_same _ _ _
  split
  · split
    · exact addArg_same.next (clearToken_same.next ((setTop_same _).next (twin_pure _)))
    · exact failWith_same _ _ _
  · split
    · exact twin_pure _
    · split
      · exact failWith_same _ _ _
      · split
        · exact (setTop_same _).next ((pushReadState_same _).next
            (clearToken_same.next (twin_pure _)))
        · split
          · exact (setTop_same _).next ((pushReadState_same _).next
              (clearToken_same.next ((addCharToToken_same c).next (twin_pure _))))
          · exact failWith_same _ _ _

theorem handleParamWordChar_same (c : UInt32) : Twin Same Same (handleParamWordChar ct c) := by
  unfold handleParamWordChar
  split
  · exact (addCharToToken_same c).next (twin_pure _)
  · exact popReadState_same.next (twin_pure _)

theorem addSvAcc_same (digitCount : ℕ) (acc qc : UInt32) :
    Twin Same Same (addSvAcc digitCount acc qc) :=
  (addCharToToken_same acc).next (setTop_same _)

theorem handleParamStringChar_same (escaped digitCount : ℕ) (acc qc c : UInt32) :
    Twin Same Same (handleParamStringChar escaped digitCount acc qc c) := by
  have htop (state : ReadState) : Twin Same Same (do
      setTop state
      pure true) :=
    (setTop_same state).next (twin_pure _)
  unfold handleParamStringChar
  split
  · split
    · dsimp only
      split
      · exact (addSvAcc_same _ _ _).next (twin_pure _)
      · exact htop _
    · exact (addSvAcc_same _ _ _).next (twin_pure _)
  split
  · split
    · exact htop _
    · split
      · exact htop _
      · split
        · exact htop _
        · split
          · exact htop _
          · exact (setTop_same _).next ((addCharToToken_same _).next (twin_pure _))
  · split
    · exact htop _
    · split
      · exact popReadState_same.next (twin_pure _)
      · exact (addCharToToken_same c).next (twin_pure _)

theorem handleOnce_eq (c : UInt32) (s : Sttp) :
    handleOnce ct env c s = (match s.stack with
      | [] => handleStartChar ct env c
      | .inName :: _ => handleNameChar ct env c
      | .inParamList gotValue :: _ => handleParamListChar ct env gotValue c
      | .inParamWord :: _ => handleParamWordChar ct c
      | .inParamString escaped digitCount acc qc :: _ =>
        handleParamStringChar escaped digitCount acc qc c) s := rfl

theorem handleOnce_alike (c : UInt32) : Twin Alike Alike (handleOnce ct env c) := by
  intro s t hst
  rw [handleOnce_eq c s, handleOnce_eq c t, ← hst.stack]
  cases hstack : s.stack with
  | nil => exact handleStartChar_alike c s t hst
  | cons top below =>
    have hsame (htop : ¬Nameless (top :: below)) : Same s t := hst.same (by rwa [hstack])
    cases top with
    | inName => exact handleNameChar_alike c s t hst
    | inParamList gotValue =>
      exact alike_of_same (handleParamListChar_same gotValue c) s t (hsame id)
    | inParamWord => exact alike_of_same (handleParamWordChar_same c) s t (hsame id)
    | inParamString escaped digitCount acc qc =>
      exact alike_of_same (handleParamStringChar_same escaped digitCount acc qc c) s t (hsame id)

theorem handleChar_alike : ∀ (n : ℕ) (c : UInt32), Twin Alike Alike (handleChar ct env n c)
  | 0, _ => undefinedBehavior_alike
  | n + 1, c => by
    refine (handleOnce_alike c).bind (fun x => ?_) fun _ _ h => h
    cases x with
    | true => exact twin_pure _
    | false => exact handleChar_alike n c

theorem feedChunk_alike : ∀ (n : ℕ) (data : List UInt8) (everCompleted : Bool),
    Twin Alike Alike (feedChunk ct env n data everCompleted)
  | 0, [], _ => twin_pure _
  | _ + 1, [], _ => twin_pure _
  | 0, _ :: _, _ => twin_pure _
  | n + 1, b :: rest, everCompleted => by
    have hnext (k : ℕ) (ever : Bool) := feedChunk_alike n (rest.drop k) ever
    unfold feedChunk
    split
    · exact failWith_alike _ _ _
    · exact twin_pure _
    · refine Twin.ask (fun _ _ => Alike.stack) fun stack => ?_
      split
      · exact hnext _ _
      · split
        · exact twin_pure _
        · refine (handleChar_alike 2 _).bind (fun _ => ?_) fun _ _ h => h
          exact Twin.ask (fun _ _ => Alike.stack) fun stack => hnext _ _

theorem setRdLo_alike (f : List UInt8 → List UInt8) :
    Twin Alike Alike (change fun s => { s with rdLo := f s.rdLo } : SttpM PUnit) :=
  twin_alike (fun _ _ _ _ e b => ⟨e, b, rfl⟩) (fun _ => rfl) fun _ => rfl

theorem keepByte_alike (b : UInt8) : Twin Alike Alike (keepByte b) := by
  refine Twin.ask (fun _ _ => Alike.rdLo) fun rdLo => ?_
  split
  · exact setRdLo_alike fun rdLo => rdLo ++ [b]
  · exact undefinedBehavior_alike

theorem keepBytes_alike : ∀ bs : List UInt8, Twin Alike Alike (keepBytes bs)
  | [] => twin_pure _
  | b :: bs => (keepByte_alike b).bind (fun _ => keepBytes_alike bs) fun _ _ h => h

theorem feedLeftOver_alike : ∀ data : List UInt8, Twin Alike Alike (feedLeftOver ct env data)
  | [] => undefinedBehavior_alike
  | b :: bs => by
    refine (keepByte_alike b).bind (fun _ => ?_) fun _ _ h => h
    refine Twin.ask (fun _ _ => Alike.rdLo) fun rdLo => ?_
    refine (feedChunk_alike _ _ _).bind (fun r => ?_) fun _ _ h => h
    obtain ⟨completed, rest⟩ := r
    dsimp only
    split
    · split
      · exact twin_pure _
      · exact feedLeftOver_alike bs
    · split
      · exact (setRdLo_alike fun _ => []).bind (fun _ => twin_pure _) fun _ _ h => h
      · exact undefinedBehavior_alike

theorem feedData_alike (rem : Bool) : ∀ (n : ℕ) (data : List UInt8),
    Twin Alike Alike (feedData ct env rem n data)
  | 0, [] => twin_pure _
  | _ + 1, [] => twin_pure _
  | 0, _ :: _ => twin_pure _
  | n + 1, b :: bs => by
    refine (feedChunk_alike _ _ _).bind (fun r => ?_) fun _ _ h => h
    obtain ⟨completed, rest⟩ := r
    dsimp only
    split
    · exact twin_pure _
    · split
      · exact feedData_alike rem n rest
      · exact (keepBytes_alike rest).bind (fun _ => twin_pure _) fun _ _ h => h

theorem feed_alike (rem : Bool) (data : List UInt8) : Twin Alike Alike (feed ct env rem data) := by
  have hdata (data : List UInt8) : Twin Alike Alike (do
      let rest ← feedData ct env rem data.length data
      pure rest.length) :=
    (feedData_alike rem _ _).bind (fun _ => twin_pure _) fun _ _ h => h
  refine Twin.ask (fun _ _ => Alike.rdLo) fun rdLo => ?_
  split
  · exact hdata data
  · refine (feedLeftOver_alike data).bind (fun left => ?_) fun _ _ h => h
    cases left with
    | none => exact twin_pure _
    | some data => exact hdata data

theorem feedAll_alike : ∀ feeds : List (Bool × List UInt8), Twin Alike Alike (feedAll ct env feeds)
  | [] => twin_pure _
  | (rem, data) :: feeds =>
    (feed_alike rem data).attempt.bind
      (fun _ => (feedAll_alike feeds).bind (fun _ => twin_pure _) fun _ _ h => h) fun _ _ h => h

theorem isIdentChar_x : isIdentChar ct 'x'.val = true := by
  rw [isIdentChar_ascii (by decide)]
  decide

theorem feedAll_x (s : Sttp) :
    (feedAll ct Env.plain [(false, [120, 59])] s.reset).2.world.handled =
      s.world.handled ++ [⟨s.token ++ ['x'.val], s.command.args⟩] := by
  have hreads : Reads ct Env.plain ⟨[], s.command, s.token, s.world.clock, s.world.handled⟩
      ['x'.val, ';'.val] (idle (s.world.clock + 1)
        (s.world.handled ++ [⟨s.token ++ ['x'.val], s.command.args⟩])) :=
    .cons (takes_start Env.plain_willing isIdentChar_x)
      (takes_name_end Env.plain_willing).reads
  have hbytes : Utf8.encode ['x'.val, ';'.val] = some ([] ++ [[120, 59]].flatten) := by
    decide +kernel
  obtain ⟨hiff, hstate⟩ := @feedPieces_iff ct _ _ [[120, 59]] _ [] _ [] _ (.inl rfl)
    ⟨hreads, hbytes⟩ rfl s.reset
  have hone : NoneInside ([] ++ []) [[120, 59]] := by
    rw [noneInside_cons]
    exact ⟨by rintro ⟨⟩, noneInside_nil _⟩
  have htaken := hiff.2 hone
  have hfinal := congrArg (fun t => t.world.handled) (hstate htaken)
  have hsame (t : Sttp) : (feedAll ct Env.plain [(false, [120, 59])] t).2 =
      (feedPieces ct Env.plain [[120, 59]] t).2 := by
    have hfeed : (feedAll ct Env.plain [(false, [120, 59])] t).2 =
        (feed ct Env.plain false [120, 59] t).2 := rfl
    have hpiece : feedPieces ct Env.plain [[120, 59]] t =
        (feed ct Env.plain false [120, 59] >>= fun _ => pure ⟨⟩ : SttpM PUnit) t := rfl
    rw [hfeed, hpiece]
    cases hrun : feed ct Env.plain false [120, 59] t with
    | mk r t' =>
      cases r with
      | none => rw [bind_none hrun]
      | some n =>
        rw [bind_some hrun]
        rfl
  rw [hsame]
  exact hfinal

/-- After a reset the object is as a new one, exactly if there was nothing in the token and no
argument in the command before. -/
theorem reset_likeNew_iff (ct : Ctype) (s : Sttp) :
    LikeNew ct s.reset ↔ s.token = [] ∧ s.command.args = [] := by
  constructor
  · intro hnew
    have hboth := (hnew Env.plain [(false, [120, 59])]).2
    have hfresh := @feedAll_x ct (Sttp.new s.world)
    have hcmd : s.world.handled ++ [⟨s.token ++ ['x'.val], s.command.args⟩] =
        s.world.handled ++ [⟨['x'.val], []⟩] :=
      (feedAll_x s).symm.trans (hboth.trans hfresh)
    have hsame := List.singleton_inj.1 (List.append_cancel_left hcmd)
    rw [SttpCmd.mk.injEq] at hsame
    exact ⟨List.append_left_eq_self.1 hsame.1, hsame.2⟩
  · rintro ⟨htoken, hargs⟩ env feeds
    have halike : Alike s.reset (Sttp.new s.world) := by
      refine ⟨[], [], 0, none, false, ?_, fun h => absurd trivial h⟩
      simp only [Sttp.reset, Sttp.new, htoken, hargs]
    obtain ⟨hresult, hstate⟩ := @feedAll_alike ct env feeds _ _ halike
    exact ⟨hresult, congrArg World.handled hstate.world⟩

def resetInName : Sttp :=
  (feedAll Ctype.ascii Env.plain [(false, [97, 98, 99])] (Sttp.new ⟨0, [], []⟩)).2.reset

/-- What has been read of a name stands in front of the next one: `x;` is handled as the command
`abcx`. -/
theorem not_reset_likeNew :
    ¬LikeNew Ctype.ascii resetInName ∧
      (feedAll Ctype.ascii Env.plain [(false, [120, 59])] resetInName).2.world.handled =
        [⟨['a'.val, 'b'.val, 'c'.val, 'x'.val], []⟩] ∧
      (feedAll Ctype.ascii Env.plain [(false, [120, 59])]
        (Sttp.new resetInName.world)).2.world.handled = [⟨['x'.val], []⟩] := by
  have hkept : (feedAll Ctype.ascii Env.plain [(false, [120, 59])] resetInName).2.world.handled =
      [⟨['a'.val, 'b'.val, 'c'.val, 'x'.val], []⟩] := by
    decide +kernel
  have hfresh : (feedAll Ctype.ascii Env.plain [(false, [120, 59])]
      (Sttp.new resetInName.world)).2.world.handled = [⟨['x'.val], []⟩] := by
    decide +kernel
  refine ⟨?_, hkept, hfresh⟩
  intro hnew
  have hboth := (hnew Env.plain [(false, [120, 59])]).2
  rw [hkept, hfresh] at hboth
  exact absurd hboth (by decide +kernel)

end Qse.SttpFeed
