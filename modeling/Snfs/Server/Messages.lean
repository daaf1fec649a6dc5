import Mathlib.Data.List.TakeDrop
import Snfs.Fs.State
import Snfs.Library.Words
import Snfs.Server.State

/-!
The messages of `include/snfs_proto.h`: what the stubs of `snfs_lib/snfs_api.c`
put in a request, what the handlers of `snfs_server/snfs.c` find in it, what they
put in a response and what the stubs take out of that. A stub sends the first
bytes of its request, as many as the member of the union for its type takes, and
the server receives them into a clear request. The member for `snfs_lookup` has
room for a file name, not for a path.

A union starts at byte 8 of a request and at byte 12 of a response.
-/

namespace Snfs

abbrev maxFileNameSize : Nat := 14
abbrev maxReadData : Nat := 1024
abbrev maxWriteData : Nat := 1024
abbrev maxReaddirEntries : Nat := 64

abbrev msgReqHeadSize : Nat := 8

abbrev msgResSize : Nat := 1552

abbrev dirEntrySize : Nat := 24

def resOk : Int := 0

def resError : Int := -1

def reqBodySize : SnfsMsgType → Nat
  | .null => 0
  | .ping => 256
  | .lookup => 14
  | .read => 12
  | .write => 1036
  | .create => 20
  | .mkdir => 20
  | .readdir => 8
  | .copy => 400

def resBodySize : SnfsMsgType → Nat
  | .null => 0
  | .ping => 256
  | .lookup => 8
  | .read => 1028
  | .write => 4
  | .create => 4
  | .mkdir => 4
  | .readdir => 1540
  | .copy => 0

def intWord (x : Int) : Nat := (x % 2 ^ 32).toNat

def IsInt (x : Int) : Prop := -2 ^ 31 ≤ x ∧ x < 2 ^ 31

instance : DecidablePred IsInt := fun x => inferInstanceAs (Decidable (_ ≤ x ∧ x < _))

/-- The input arguments of a stub; the buffer of `snfs_write` holds `count` bytes. -/
inductive Call where
  | lookup (pathname : CString)
  | read (fhandle : Int) (offset count : Nat)
  | write (fhandle : Int) (offset count : Nat) (buffer : List UInt8)
  | create (dir : Int) (name : CString)
  | mkdir (dir : Int) (name : CString)
  | readdir (dir : Int) (cmax : Nat)
  | copy (srcpath tgtpath : CString)
deriving DecidableEq, Repr

namespace Call

def type : Call → SnfsMsgType
  | .lookup _ => .lookup
  | .read _ _ _ => .read
  | .write _ _ _ _ => .write
  | .create _ _ => .create
  | .mkdir _ _ => .mkdir
  | .readdir _ _ => .readdir
  | .copy _ _ => .copy

/-- The arguments as the stub puts them in the body. -/
def putArgs (req : Buf msgReqSize) : Call → Buf msgReqSize
  | .lookup pathname => req.splice 8 (pathname ++ [0])
  | .read fhandle offset count =>
      ((req.putWord 8 (intWord fhandle)).putWord 12 offset).putWord 16 count
  | .write fhandle offset count buffer =>
      (((req.putWord 8 (intWord fhandle)).putWord 12 offset).putWord 16 count).splice 20 buffer
  | .create dir name => (req.putWord 8 (intWord dir)).splice 12 (name ++ [0])
  | .mkdir dir name => (req.putWord 8 (intWord dir)).splice 12 (name ++ [0])
  | .readdir dir cmax => (req.putWord 8 (intWord dir)).putWord 12 cmax
  | .copy srcpath tgtpath => (req.splice 8 (srcpath ++ [0])).splice 208 (tgtpath ++ [0])

/-- The request with the serial number that `remote_call` gives it. -/
def request (call : Call) (sn : Nat) : Buf msgReqSize :=
  (call.putArgs (Buf.putWord .zero 0 call.type.code)).putWord 4 sn

def reqsz (call : Call) : Nat := msgReqHeadSize + reqBodySize call.type

def sent (call : Call) (sn : Nat) : List UInt8 := (call.request sn).slice 0 call.reqsz

end Call

def pathAt (req : Buf msgReqSize) (pos : Nat) : CString := req.cstr pos (msgReqSize - pos)

/-- The name at a place of a request, after `name[MAX_FILE_NAME_SIZE-1] = '\0'`. -/
def nameAt (req : Buf msgReqSize) (pos : Nat) : CString :=
  (req.splice (pos + (maxFileNameSize - 1)) [0]).cstr pos maxFileNameSize

/-- The `inodeid_t` that a handler makes of the `snfs_fhandle_t` in a request. -/
def inodeidAt (req : Buf msgReqSize) : Nat := msgWord req 8 % 2 ^ 16

/-- The input arguments that the handlers take from a request. -/
def handlerArgs (req : Buf msgReqSize) : SnfsMsgType → Option Call
  | .lookup => some (.lookup (pathAt req 8))
  | .read => some (.read (inodeidAt req) (msgWord req 12) (msgWord req 16))
  | .write => some (.write (inodeidAt req) (msgWord req 12) (msgWord req 16)
      ((req.slice 20 maxWriteData).take (msgWord req 16)))
  | .create => some (.create (inodeidAt req) (nameAt req 12))
  | .mkdir => some (.mkdir (inodeidAt req) (nameAt req 12))
  | .readdir => some (.readdir (inodeidAt req) (msgWord req 12))
  | .copy => some (.copy (pathAt req 8) (pathAt req 208))
  | .null | .ping => none

/-- The arguments that the handler for a request takes from it. -/
def handledCall (r : Req) : Option Call :=
  (service.find? fun type => type.code == r.type).bind (handlerArgs r.req)

structure SnfsDirEntry where
  name : CString
  len : Nat
  type : Nat
deriving DecidableEq, Repr

/-- The output arguments of a stub, and what a handler puts in the body of a response. -/
inductive Reply where
  | lookup (file fsize : Nat)
  | read (data : List UInt8) (nread : Nat)
  | write (fsize : Nat)
  | create (file : Nat)
  | mkdir (newdirid : Nat)
  | readdir (list : List SnfsDirEntry)
  | copy
deriving DecidableEq, Repr

def putEntry (body : Buf msgResBodySize) (i : Nat) (entry : SnfsDirEntry) : Buf msgResBodySize :=
  ((body.splice (4 + dirEntrySize * i)
      ((entry.name ++ List.replicate maxFileNameSize 0).take maxFileNameSize)).putWord
    (4 + dirEntrySize * i + 16) entry.len).putWord (4 + dirEntrySize * i + 20) entry.type

def putEntries : List SnfsDirEntry → (i : Nat) → Buf msgResBodySize → Buf msgResBodySize
  | [], _, body => body
  | entry :: rest, i, body => putEntries rest (i + 1) (putEntry body i entry)

def entryOf (body : Buf msgResBodySize) (i : Nat) : SnfsDirEntry :=
  { name := body.cstr (4 + dirEntrySize * i) maxFileNameSize
    len := body.word (4 + dirEntrySize * i + 16)
    type := body.word (4 + dirEntrySize * i + 20) }

namespace Reply

def type : Reply → SnfsMsgType
  | .lookup _ _ => .lookup
  | .read _ _ => .read
  | .write _ => .write
  | .create _ => .create
  | .mkdir _ => .mkdir
  | .readdir _ => .readdir
  | .copy => .copy

def body : Reply → Buf msgResBodySize
  | .lookup file fsize => (Buf.putWord .zero 0 file).putWord 4 fsize
  | .read data nread => (Buf.splice .zero 0 data).putWord 1024 nread
  | .write fsize => Buf.putWord .zero 0 fsize
  | .create file => Buf.putWord .zero 0 file
  | .mkdir newdirid => Buf.putWord .zero 0 newdirid
  | .readdir list => putEntries list 0 (Buf.putWord .zero 0 list.length)
  | .copy => .zero

def res (reply : Reply) : Res × Nat :=
  (⟨reply.type.code, 0, resOk, reply.body⟩, msgResHeadSize + resBodySize reply.type)

end Reply

def Res.message (res : Res) : Buf msgResSize :=
  (((Buf.putWord .zero 0 res.type).putWord 4 res.sn).putWord 8 (intWord res.status)).splice 12
    (res.body.slice 0 msgResBodySize)

def srvSendResponse (answer : Res × Nat) : List UInt8 := answer.1.message.slice 0 answer.2

def resBody (res : Buf msgResSize) : Buf msgResBodySize := fun i => res.get (12 + i.val)

namespace Call

def outputs (body : Buf msgResBodySize) : Call → Reply
  | .lookup _ => .lookup (body.word 0) (body.word 4)
  | .read _ _ count => .read (body.slice 0 count) (body.word 1024)
  | .write _ _ _ _ => .write (body.word 0)
  | .create _ _ => .create (body.word 0)
  | .mkdir _ _ => .mkdir (body.word 0)
  | .readdir _ _ => .readdir ((List.range (body.word 0)).map (entryOf body))
  | .copy _ _ => .copy

/-- What a stub makes of the response that `remote_call` received into a clear one; `none` is
`STAT_ERROR`. -/
def result (call : Call) (sn : Nat) (bytes : List UInt8) : Option Reply :=
  let res : Buf msgResSize := Buf.splice .zero 0 bytes
  if bytes = [] then none
  else if res.word 4 ≠ sn then none
  else if res.word 8 ≠ intWord resOk then none
  else some (call.outputs (resBody res))

end Call

def IsPath (path : CString) : Prop := (0 : UInt8) ∉ path ∧ path.length < maxPathNameSize

def IsName (name : CString) : Prop := (0 : UInt8) ∉ name ∧ name.length < maxFileNameSize

/-- Arguments within the limits that `snfs_proto.h` gives. -/
def Call.Limits : Call → Prop
  | .lookup pathname => IsPath pathname
  | .read fhandle offset count => IsInt fhandle ∧ offset < 2 ^ 32 ∧ count ≤ maxReadData
  | .write fhandle offset count buffer =>
      IsInt fhandle ∧ offset < 2 ^ 32 ∧ count ≤ maxWriteData ∧ buffer.length = count
  | .create dir name => IsInt dir ∧ IsName name
  | .mkdir dir name => IsInt dir ∧ IsName name
  | .readdir dir cmax => IsInt dir ∧ cmax < 2 ^ 32
  | .copy srcpath tgtpath => IsPath srcpath ∧ IsPath tgtpath

def IsInodeid (x : Int) : Prop := 0 ≤ x ∧ x < 2 ^ 16

/-- The arguments for which the messages have room: a path for `snfs_lookup` takes up the field of
a file name at most, and a handle is an `inodeid_t`. -/
def Call.Carried : Call → Prop
  | .lookup pathname => pathname.length ≤ maxFileNameSize
  | .read fhandle _ _ => IsInodeid fhandle
  | .write fhandle _ _ _ => IsInodeid fhandle
  | .create dir _ => IsInodeid dir
  | .mkdir dir _ => IsInodeid dir
  | .readdir dir _ => IsInodeid dir
  | .copy _ _ => True

def SnfsDirEntry.Limits (entry : SnfsDirEntry) : Prop :=
  IsName entry.name ∧ entry.len < 2 ^ 32 ∧ entry.type < 2 ^ 32

/-- What the handler for a call can put in a response with `RES_OK`. The buffer of `snfs_read` is
taken as far as the stub copies it. -/
def Call.Gives : Call → Reply → Prop
  | .lookup _, .lookup file fsize => file < 2 ^ 32 ∧ fsize < 2 ^ 32
  | .read _ _ count, .read data nread => data.length = count ∧ nread < 2 ^ 32
  | .write _ _ _ _, .write fsize => fsize < 2 ^ 32
  | .create _ _, .create file => file < 2 ^ 32
  | .mkdir _ _, .mkdir newdirid => newdirid < 2 ^ 32
  | .readdir _ _, .readdir list => list.length ≤ maxReaddirEntries ∧ ∀ entry ∈ list, entry.Limits
  | .copy _ _, .copy => True
  | _, _ => False

theorem msgWord_eq (msg : Buf msgReqSize) (pos : Nat) : msgWord msg pos = msg.word pos := rfl

theorem intWord_lt (x : Int) : intWord x < 2 ^ 32 := by
  rw [intWord]
  omega

private theorem cast_intWord {x : Int} (int : IsInt x) :
    ((intWord x % 2 ^ 16 : Nat) : Int) = x ↔ IsInodeid x := by
  obtain ⟨low, high⟩ := int
  rw [intWord, IsInodeid]
  omega

theorem SnfsMsgType.find_code {type : SnfsMsgType} (known : type ∈ service) :
    service.find? (fun t => t.code == type.code) = some type := by
  cases type <;> first | rfl | (exact absurd known (by decide))

theorem SnfsMsgType.code_lt (type : SnfsMsgType) : type.code < 2 ^ 32 := by
  cases type <;> decide

namespace Call

private theorem type_mem (call : Call) : call.type ∈ service := by
  cases call <;> simp [Call.type, service]

private theorem word_putArgs (call : Call) (req : Buf msgReqSize) {pos : Nat} (head : pos + 4 ≤ 8) :
    (call.putArgs req).word pos = req.word pos := by
  cases call <;>
    simp (disch := omega) only [putArgs, Buf.word_splice_other, Buf.word_putWord_other]

theorem request_received (call : Call) (sn : Nat) (cliaddr : SockAddr) :
    (srvRecvRequest ⟨cliaddr, call.sent sn⟩).req = (call.request sn).cut call.reqsz :=
  Buf.splice_slice _ _

private theorem type_received (call : Call) (sn : Nat) (cliaddr : SockAddr) :
    (srvRecvRequest ⟨cliaddr, call.sent sn⟩).type = call.type.code := by
  have size : 8 ≤ call.reqsz := Nat.le_add_right _ _
  rw [Req.type, request_received, msgWord_eq, Buf.word_cut _ (by omega), request,
    Buf.word_putWord_other _ _ (by omega), word_putArgs _ _ (by omega),
    Buf.word_putWord _ (by decide) call.type.code_lt]

private theorem sn_received (call : Call) {sn : Nat} (small : sn < 2 ^ 32) (cliaddr : SockAddr) :
    (srvRecvRequest ⟨cliaddr, call.sent sn⟩).sn = sn := by
  have size : 8 ≤ call.reqsz := Nat.le_add_right _ _
  rw [Req.sn, request_received, msgWord_eq, Buf.word_cut _ (by omega), request,
    Buf.word_putWord _ (by decide) small]

/-- What a handler finds where the request went. -/
theorem handledCall_sent (call : Call) (sn : Nat) (cliaddr : SockAddr) :
    handledCall (srvRecvRequest ⟨cliaddr, call.sent sn⟩) =
      handlerArgs ((call.request sn).cut call.reqsz) call.type := by
  rw [handledCall, type_received, SnfsMsgType.find_code call.type_mem, Option.bind_some,
    request_received]

end Call

theorem inodeidAt_sent {req : Buf msgReqSize} {x : Int} (stored : req.word 8 = intWord x)
    (int : IsInt x) : ((inodeidAt req : Nat) : Int) = x ↔ IsInodeid x := by
  rw [inodeidAt, msgWord_eq, stored]
  exact cast_intWord int

private theorem nameAt_of_slice {req : Buf msgReqSize} {name : CString} (isName : IsName name)
    (stored : req.slice 12 (name.length + 1) = name ++ [0]) : nameAt req 12 = name := by
  obtain ⟨free, short⟩ := isName
  have longest : name.length < 14 := short
  refine Buf.cstr_of_slice free short ?_
  rw [← stored]
  refine Buf.slice_congr fun k hk => ?_
  by_cases last : k = 13
  · -- the terminating zero of the longest name
    subst last
    have zero : req.get 25 = 0 := by
      have byte := Buf.getElem_slice req 12 (name.length + 1) 13 (by rw [Buf.length_slice]; omega)
      rw [← byte, ← List.getD_eq_getElem _ 0, stored, show 13 = name.length by omega]
      simp
    rw [zero]
    rfl
  · exact Buf.get_splice_other req (by simp only [maxFileNameSize, List.length_singleton]; omega)

theorem Call.word_sent (call : Call) (sn pos w : Nat) (body : 8 ≤ pos)
    (inside : pos + 4 ≤ call.reqsz)
    (stored : ∀ req, (call.putArgs req).word pos = w) :
    ((call.request sn).cut call.reqsz).word pos = w := by
  rw [Buf.word_cut _ inside, Call.request, Buf.word_putWord_other _ _ (by omega), stored]

theorem Call.slice_sent (call : Call) (sn pos num : Nat) (xs : List UInt8) (body : 8 ≤ pos)
    (inside : pos + num ≤ call.reqsz)
    (stored : ∀ req, (call.putArgs req).slice pos num = xs) :
    ((call.request sn).cut call.reqsz).slice pos num = xs := by
  rw [Buf.slice_cut _ inside, Call.request, Buf.putWord, Buf.slice_splice_other, stored]
  rw [Buf.length_wordBytes]
  omega

theorem Call.name_sent (call : Call) {dir : Int} {name : CString} (isName : IsName name)
    (size : call.reqsz = 28)
    (stored : ∀ req, call.putArgs req = (req.putWord 8 (intWord dir)).splice 12 (name ++ [0]))
    (sn : Nat) : ((call.request sn).cut call.reqsz).word 8 = intWord dir ∧
      nameAt ((call.request sn).cut call.reqsz) 12 = name := by
  have short : name.length < 14 := isName.2
  refine ⟨call.word_sent sn 8 _ (by decide) (by omega) fun req => ?_,
    nameAt_of_slice isName (call.slice_sent sn 12 _ _ (by decide) (by omega) fun req => ?_)⟩
  · rw [stored, Buf.word_splice_other _ (by omega), Buf.word_putWord _ (by decide) (intWord_lt _)]
  · rw [stored, Buf.slice_splice_self _ (by simp)
      (by simp only [msgReqSize, List.length_append, List.length_singleton]; omega)]
    exact List.take_of_length_le (by simp)

/-- The path for `snfs_lookup` arrives as far as the field of a file name goes. -/
theorem Call.path_sent {pathname : CString} (isPath : IsPath pathname) (sn : Nat) :
    pathAt (((Call.lookup pathname).request sn).cut (Call.lookup pathname).reqsz) 8 =
      pathname.take maxFileNameSize := by
  obtain ⟨free, short⟩ := isPath
  have fits : pathname.length < 200 := short
  have same : pathAt (((Call.lookup pathname).request sn).cut (Call.lookup pathname).reqsz) 8 =
      ((((Buf.zero : Buf msgReqSize).putWord 0 SnfsMsgType.lookup.code).splice 8
        (pathname ++ [0])).cut 22).cstr 8 (msgReqSize - 8) := by
    refine Buf.cstr_congr fun k _ => ?_
    rw [Buf.get_cut, Buf.get_cut]
    refine ite_congr rfl (fun _ => ?_) fun _ => rfl
    exact Buf.get_splice_other _ (by rw [Buf.length_wordBytes]; omega)
  rw [same, Buf.cstr_cut_stored _ free (by simp only [msgReqSize]; omega) (by decide)
    (by simp only [msgReqSize]; omega)]

/-- A handler finds the arguments that a stub was called with exactly if the messages have room
for them. -/
theorem handledCall_eq_iff {call : Call} (limits : call.Limits) (sn : Nat) (cliaddr : SockAddr) :
    handledCall (srvRecvRequest ⟨cliaddr, call.sent sn⟩) = some call ↔ call.Carried := by
  rw [Call.handledCall_sent]
  cases call with
  | lookup pathname =>
      simp only [Call.type, handlerArgs, Call.path_sent limits sn, Option.some.injEq,
        Call.lookup.injEq, Call.Carried]
      exact List.take_eq_self_iff pathname
  | read fhandle offset count =>
      obtain ⟨int, small, bounded⟩ := limits
      have handle := Call.word_sent (.read fhandle offset count) sn 8 (intWord fhandle)
        (by decide) (show 8 + 4 ≤ 20 by decide) fun req => by
          simp (disch := omega) only [Call.putArgs, Buf.word_putWord_other]
          exact Buf.word_putWord _ (by decide) (intWord_lt _)
      have hoffset := Call.word_sent (.read fhandle offset count) sn 12 offset
        (by decide) (show 12 + 4 ≤ 20 by decide) fun req => by
          simp (disch := omega) only [Call.putArgs, Buf.word_putWord_other]
          exact Buf.word_putWord _ (by decide) small
      have hcount := Call.word_sent (.read fhandle offset count) sn 16 count
        (by decide) (show 16 + 4 ≤ 20 by decide) fun req =>
          Buf.word_putWord _ (by decide) (Nat.lt_of_le_of_lt bounded (by decide))
      simp only [Call.type, handlerArgs, msgWord_eq, hoffset, hcount, Option.some.injEq,
        Call.read.injEq, and_true]
      exact inodeidAt_sent handle int
  | write fhandle offset count buffer =>
      obtain ⟨int, small, bounded, length⟩ := limits
      have fits : count ≤ 1024 := bounded
      have handle := Call.word_sent (.write fhandle offset count buffer) sn 8 (intWord fhandle)
        (by decide) (show 8 + 4 ≤ 1044 by decide) fun req => by
          simp (disch := omega) only [Call.putArgs, Buf.word_splice_other, Buf.word_putWord_other]
          exact Buf.word_putWord _ (by decide) (intWord_lt _)
      have hoffset := Call.word_sent (.write fhandle offset count buffer) sn 12 offset
        (by decide) (show 12 + 4 ≤ 1044 by decide) fun req => by
          simp (disch := omega) only [Call.putArgs, Buf.word_splice_other, Buf.word_putWord_other]
          exact Buf.word_putWord _ (by decide) small
      have hcount := Call.word_sent (.write fhandle offset count buffer) sn 16 count
        (by decide) (show 16 + 4 ≤ 1044 by decide) fun req => by
          simp (disch := omega) only [Call.putArgs, Buf.word_splice_other]
          exact Buf.word_putWord _ (by decide) (Nat.lt_of_le_of_lt bounded (by decide))
      have data := Call.slice_sent (.write fhandle offset count buffer) sn 20 count buffer
        (by decide) (show 20 + count ≤ 1044 by omega) fun req => by
          rw [Call.putArgs, Buf.slice_splice_self _ (Nat.le_of_eq length.symm)
            (by simp only [msgReqSize]; omega)]
          exact List.take_of_length_le (Nat.le_of_eq length)
      rw [← Buf.take_slice _ _ fits] at data
      simp only [Call.type, handlerArgs, msgWord_eq, hoffset, hcount, data, Option.some.injEq,
        Call.write.injEq, and_true]
      exact inodeidAt_sent handle int
  | create dir name =>
      obtain ⟨int, isName⟩ := limits
      obtain ⟨handle, arrived⟩ := Call.name_sent (.create dir name) isName rfl (fun _ => rfl) sn
      simp only [Call.type, handlerArgs, arrived, Option.some.injEq, Call.create.injEq, and_true]
      exact inodeidAt_sent handle int
  | mkdir dir name =>
      obtain ⟨int, isName⟩ := limits
      obtain ⟨handle, arrived⟩ := Call.name_sent (.mkdir dir name) isName rfl (fun _ => rfl) sn
      simp only [Call.type, handlerArgs, arrived, Option.some.injEq, Call.mkdir.injEq, and_true]
      exact inodeidAt_sent handle int
  | readdir dir cmax =>
      obtain ⟨int, small⟩ := limits
      have handle := Call.word_sent (.readdir dir cmax) sn 8 (intWord dir)
        (by decide) (show 8 + 4 ≤ 16 by decide) fun req => by
          simp (disch := omega) only [Call.putArgs, Buf.word_putWord_other]
          exact Buf.word_putWord _ (by decide) (intWord_lt _)
      have hcmax := Call.word_sent (.readdir dir cmax) sn 12 cmax
        (by decide) (show 12 + 4 ≤ 16 by decide) fun req =>
          Buf.word_putWord _ (by decide) small
      simp only [Call.type, handlerArgs, msgWord_eq, hcmax, Option.some.injEq,
        Call.readdir.injEq, and_true]
      exact inodeidAt_sent handle int
  | copy srcpath tgtpath =>
      obtain ⟨⟨srcFree, srcShort⟩, tgtFree, tgtShort⟩ := limits
      have srcFits : srcpath.length < 200 := srcShort
      have tgtFits : tgtpath.length < 200 := tgtShort
      have src : pathAt (((Call.copy srcpath tgtpath).request sn).cut 408) 8 = srcpath := by
        refine Buf.cstr_of_slice srcFree (show srcpath.length < 1044 - 8 by omega) ?_
        refine Call.slice_sent (.copy srcpath tgtpath) sn 8 _ _ (by decide)
          (show 8 + (srcpath.length + 1) ≤ 408 by omega) fun req => ?_
        rw [Call.putArgs, Buf.slice_splice_other _ (by omega), Buf.slice_splice_self _ (by simp)
          (by simp only [msgReqSize, List.length_append, List.length_singleton]; omega)]
        exact List.take_of_length_le (by simp)
      have tgt : pathAt (((Call.copy srcpath tgtpath).request sn).cut 408) 208 = tgtpath := by
        refine Buf.cstr_of_slice tgtFree (show tgtpath.length < 1044 - 208 by omega) ?_
        refine Call.slice_sent (.copy srcpath tgtpath) sn 208 _ _ (by decide)
          (show 208 + (tgtpath.length + 1) ≤ 408 by omega) fun req => ?_
        rw [Call.putArgs, Buf.slice_splice_self _ (by simp)
          (by simp only [msgReqSize, List.length_append, List.length_singleton]; omega)]
        exact List.take_of_length_le (by simp)
      have size : (Call.copy srcpath tgtpath).reqsz = 408 := rfl
      simp only [Call.type, handlerArgs, size, src, tgt, Call.Carried]

private theorem entryOf_congr {b c : Buf msgResBodySize} {i : Nat}
    (same : ∀ k, k < dirEntrySize → b.get (4 + dirEntrySize * i + k) =
      c.get (4 + dirEntrySize * i + k)) : entryOf b i = entryOf c i := by
  have word (p : Nat) (hp : p + 4 ≤ dirEntrySize) :
      b.word (4 + dirEntrySize * i + p) = c.word (4 + dirEntrySize * i + p) :=
    Buf.word_congr fun k hk => by
      rw [Nat.add_assoc _ p k]
      exact same _ (by omega)
  rw [entryOf, entryOf, word 16 (by decide), word 20 (by decide),
    Buf.cstr_congr fun k hk => same k (Nat.lt_trans hk (by decide))]

/-- An entry takes up its own bytes. -/
theorem get_putEntry_other (body : Buf msgResBodySize) (i : Nat) (entry : SnfsDirEntry) {p : Nat}
    (below : p < 4 + dirEntrySize * i) : (putEntry body i entry).get p = body.get p := by
  rw [putEntry, Buf.putWord, Buf.putWord, Buf.get_splice_other _ (by omega),
    Buf.get_splice_other _ (by omega), Buf.get_splice_other _ (by omega)]

private theorem get_putEntries_other (list : List SnfsDirEntry) (i : Nat)
    (body : Buf msgResBodySize)
    {p : Nat} (below : p < 4 + dirEntrySize * i) :
    (putEntries list i body).get p = body.get p := by
  induction list generalizing i body with
  | nil => rfl
  | cons entry rest ih =>
      rw [putEntries, ih _ _ (by rw [Nat.mul_succ]; omega), get_putEntry_other _ _ _ below]

private theorem entryOf_putEntry (body : Buf msgResBodySize) {i : Nat} {entry : SnfsDirEntry}
    (room : i < maxReaddirEntries) (limits : entry.Limits) :
    entryOf (putEntry body i entry) i = entry := by
  obtain ⟨⟨free, short⟩, len, type⟩ := limits
  have fits : i < 64 := room
  have longest : entry.name.length < 14 := short
  have name : (putEntry body i entry).cstr (4 + dirEntrySize * i) maxFileNameSize = entry.name := by
    have padded : ((entry.name ++ List.replicate maxFileNameSize (0 : UInt8)).take
        maxFileNameSize).length = 14 := by
      rw [List.length_take, List.length_append, List.length_replicate]
      exact Nat.min_eq_left (Nat.le_add_left _ _)
    refine Buf.cstr_of_slice free short ?_
    rw [putEntry, Buf.putWord, Buf.putWord, Buf.slice_splice_other _ (by omega),
      Buf.slice_splice_other _ (by omega), Buf.slice_splice_self _ (by omega)
        (by rw [padded]; simp only [msgResBodySize, dirEntrySize]; omega), List.take_take,
      Nat.min_eq_left (by omega), List.take_append, List.take_of_length_le (by omega),
      Nat.add_sub_cancel_left, List.take_replicate]
    rfl
  have wordLen : (putEntry body i entry).word (4 + dirEntrySize * i + 16) = entry.len := by
    rw [putEntry, Buf.word_putWord_other _ _ (by omega)]
    exact Buf.word_putWord _ (by simp only [msgResBodySize, dirEntrySize]; omega) len
  have wordType : (putEntry body i entry).word (4 + dirEntrySize * i + 20) = entry.type :=
    Buf.word_putWord _ (by simp only [msgResBodySize, dirEntrySize]; omega) type
  rw [entryOf, name, wordLen, wordType]

private theorem entryOf_putEntries {list : List SnfsDirEntry} (i : Nat) (body : Buf msgResBodySize)
    (room : i + list.length ≤ maxReaddirEntries) (limits : ∀ entry ∈ list, entry.Limits) :
    (List.range' i list.length).map (entryOf (putEntries list i body)) = list := by
  induction list generalizing i body with
  | nil => rfl
  | cons entry rest ih =>
      rw [List.length_cons] at room
      have first : entryOf (putEntries (entry :: rest) i body) i = entry := by
        rw [putEntries, entryOf_congr (c := putEntry body i entry) fun k hk =>
          get_putEntries_other _ _ _ (by rw [Nat.mul_succ]; omega)]
        exact entryOf_putEntry body (by omega) (limits entry List.mem_cons_self)
      rw [List.length_cons, List.range'_succ, List.map_cons, first, putEntries,
        ih _ _ (by omega) fun e he => limits e (List.mem_cons_of_mem _ he)]

/-- The body of a response that was sent as far as the member for its type goes. -/
theorem resBody_sent (res : Res) (k : Nat) :
    resBody (res.message.cut (msgResHeadSize + k)) = res.body.cut k := by
  refine Buf.ext_get fun i hi => ?_
  rw [Buf.get_of_lt _ hi, resBody, Buf.get_cut, Buf.get_cut]
  refine ite_congr (by simp only [msgResHeadSize, Nat.add_lt_add_iff_left]) (fun _ => ?_)
    fun _ => rfl
  rw [Res.message, Buf.get_splice_self _ (by rwa [Buf.length_slice])
    (by rw [Buf.length_slice]; decide), Buf.getElem_slice, Nat.zero_add]

theorem word_message (res : Res) {pos : Nat} (head : pos + 4 ≤ msgResHeadSize) :
    res.message.word pos = (((Buf.zero.putWord 0 res.type).putWord 4 res.sn).putWord 8
      (intWord res.status) : Buf msgResSize).word pos :=
  Buf.word_splice_other _ (Or.inl head)

/-- The stub takes what was put there out of a body, as far as its member goes. -/
theorem Call.outputs_body {call : Call} {reply : Reply} (limits : call.Limits)
    (gives : call.Gives reply) :
    call.outputs (reply.body.cut (resBodySize reply.type)) = reply := by
  cases call <;> cases reply <;> try (exact gives.elim)
  case lookup.lookup pathname file fsize =>
      have file' : ((Reply.lookup file fsize).body.cut 8).word 0 = file := by
        rw [Buf.word_cut _ (by decide), Reply.body, Buf.word_putWord_other _ _ (by decide)]
        exact Buf.word_putWord _ (by decide) gives.1
      have fsize' : ((Reply.lookup file fsize).body.cut 8).word 4 = fsize := by
        rw [Buf.word_cut _ (by decide)]
        exact Buf.word_putWord _ (by decide) gives.2
      simp only [outputs, Reply.type, resBodySize, file', fsize']
  case read.read fhandle offset count data nread =>
      obtain ⟨length, small⟩ := gives
      have bounded : count ≤ 1024 := limits.2.2
      have data' : ((Reply.read data nread).body.cut 1028).slice 0 count = data := by
        rw [Buf.slice_cut _ (by omega), Reply.body, Buf.putWord,
          Buf.slice_splice_other _ (by rw [Nat.zero_add]; exact Or.inl bounded),
          Buf.slice_splice_self _ (Nat.le_of_eq length.symm)
            (by simp only [msgResBodySize]; omega)]
        exact List.take_of_length_le (Nat.le_of_eq length)
      have nread' : ((Reply.read data nread).body.cut 1028).word 1024 = nread := by
        rw [Buf.word_cut _ (by decide)]
        exact Buf.word_putWord _ (by decide) small
      simp only [outputs, Reply.type, resBodySize, data', nread']
  case write.write fhandle offset count buffer fsize =>
      exact congrArg Reply.write (Buf.word_stored gives (by decide))
  case create.create dir name file =>
      exact congrArg Reply.create (Buf.word_stored gives (by decide))
  case mkdir.mkdir dir name newdirid =>
      exact congrArg Reply.mkdir (Buf.word_stored gives (by decide))
  case readdir.readdir dir cmax list =>
      obtain ⟨room, entries⟩ := gives
      have fits : list.length ≤ 64 := room
      have count : (Reply.readdir list).body.word 0 = list.length := by
        rw [Reply.body, Buf.word_congr (c := Buf.zero.putWord 0 list.length) fun k hk =>
          get_putEntries_other _ _ _ (by omega)]
        exact Buf.word_putWord _ (by decide) (by omega)
      have all : (Reply.readdir list).body.cut 1540 = (Reply.readdir list).body :=
        Buf.ext_get fun k hk => by rw [Buf.get_cut, if_pos hk]
      have same : (List.range list.length).map (entryOf (Reply.readdir list).body) = list := by
        rw [List.range_eq_range']
        exact entryOf_putEntries 0 _ (by omega) entries
      simp only [outputs, Reply.type, resBodySize, all, count, same]
  case copy.copy => rfl

/-- The stub returns what the handler put in a response with `RES_OK`, whether or not the handler
found the arguments of the call. -/
theorem Call.result_served {call : Call} {reply : Reply} (limits : call.Limits)
    (gives : call.Gives reply) {sn : Nat} (small : sn < 2 ^ 32) (cliaddr : SockAddr) :
    call.result sn (srvSendResponse (serve (srvRecvRequest ⟨cliaddr, call.sent sn⟩) reply.res)) =
      some reply := by
  have answer : serve (srvRecvRequest ⟨cliaddr, call.sent sn⟩) reply.res =
      ({ reply.res.1 with sn := sn }, msgResHeadSize + resBodySize reply.type) := by
    rw [serve, call.type_received, SnfsMsgType.find_code call.type_mem, call.sn_received small]
    rfl
  generalize answered : ({ reply.res.1 with sn := sn } : Res) = res at answer
  have status : res.status = resOk := by rw [← answered]; rfl
  have stored : res.sn = sn := by rw [← answered]
  have body : res.body = reply.body := by rw [← answered]; rfl
  generalize size : resBodySize reply.type = k at answer
  have received : Buf.splice .zero 0 (res.message.slice 0 (msgResHeadSize + k)) =
      res.message.cut (msgResHeadSize + k) := Buf.splice_slice _ _
  have some_bytes : res.message.slice 0 (msgResHeadSize + k) ≠ [] := fun none => by
    have length := congrArg List.length none
    rw [Buf.length_slice, List.length_nil] at length
    exact absurd length (by simp only [msgResHeadSize]; omega)
  have hsn : (res.message.cut (msgResHeadSize + k)).word 4 = sn := by
    rw [Buf.word_cut _ (by simp only [msgResHeadSize]; omega), word_message _ (by decide),
      Buf.word_putWord_other _ _ (by decide), Buf.word_putWord _ (by decide) (by rwa [stored]),
      stored]
  have hstatus : (res.message.cut (msgResHeadSize + k)).word 8 = intWord resOk := by
    rw [Buf.word_cut _ (by simp only [msgResHeadSize]; omega), word_message _ (by decide),
      Buf.word_putWord _ (by decide) (intWord_lt _), status]
  rw [answer, srvSendResponse, Call.result]
  simp only [received, some_bytes, hsn, hstatus, not_true, ne_eq, if_false]
  rw [resBody_sent, body, ← size, call.outputs_body limits gives]

/-- Arguments reach the handler unchanged, and outputs the caller, exactly if the messages have
room for the arguments. -/
theorem messages_carry_iff {call : Call} (limits : call.Limits) {sn : Nat} (small : sn < 2 ^ 32)
    (cliaddr : SockAddr) :
    (handledCall (srvRecvRequest ⟨cliaddr, call.sent sn⟩) = some call ∧
      ∀ reply, call.Gives reply →
        call.result sn
          (srvSendResponse (serve (srvRecvRequest ⟨cliaddr, call.sent sn⟩) reply.res)) =
            some reply) ↔ call.Carried := by
  refine (and_iff_left fun reply gives => ?_).trans (handledCall_eq_iff limits sn cliaddr)
  exact call.result_served limits gives small cliaddr

theorem messages_carry_create :
    handledCall (srvRecvRequest ⟨[], (Call.create 1 [97]).sent 0⟩) = some (.create 1 [97]) ∧
      ∀ reply, (Call.create 1 [97]).Gives reply →
        (Call.create 1 [97]).result 0 (srvSendResponse
          (serve (srvRecvRequest ⟨[], (Call.create 1 [97]).sent 0⟩) reply.res)) = some reply :=
  have limits : (Call.create 1 [97]).Limits := ⟨by decide, by decide, by decide⟩
  (messages_carry_iff limits (by decide) []).mpr ⟨by decide, by decide⟩

def longPath : CString := 47 :: List.replicate 14 97

/-- The handler for `snfs_lookup` looks for another path than the one that the stub was given. -/
theorem long_path_is_cut :
    (Call.lookup longPath).Limits ∧
      handledCall (srvRecvRequest ⟨[], (Call.lookup longPath).sent 0⟩) =
        some (.lookup (47 :: List.replicate 13 97)) ∧
      handledCall (srvRecvRequest ⟨[], (Call.lookup longPath).sent 0⟩) ≠
        some (.lookup longPath) := by
  have limits : (Call.lookup longPath).Limits := ⟨by decide, by decide⟩
  have found : handledCall (srvRecvRequest ⟨[], (Call.lookup longPath).sent 0⟩) =
      some (.lookup (47 :: List.replicate 13 97)) := by
    rw [Call.handledCall_sent]
    exact congrArg (some ∘ Call.lookup) (Call.path_sent limits 0)
  refine ⟨limits, found, ?_⟩
  rw [found]
  decide

end Snfs
