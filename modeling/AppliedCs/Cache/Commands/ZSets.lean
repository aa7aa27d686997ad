import AppliedCs.Cache.Commands.Basic

namespace Cache.ZSets

open Codec

variable {F : Type} [Score F] (now : Moment)

structure AddOptions where
  nx : Bool := false
  xx : Bool := false
  ch : Bool := false

-- The options and the arguments behind them.
def addOptions [Environment] (options : AddOptions) : List RespValue → AddOptions × List RespValue
  | [] => (options, [])
  | opt :: args =>
    match opt.asStr.map Environment.toUppercase with
    | some "NX" => addOptions { options with nx := true } args
    | some "XX" => addOptions { options with xx := true } args
    | some "CH" => addOptions { options with ch := true } args
    | _ => (options, opt :: args)

def parseScore (v : RespValue) : Option F :=
  v.asStr.bind Score.parse

-- How many members are new, and how many others have got another score. The members so far are kept
-- if one cannot be read.
def addMembers (options : AddOptions) (z : ZSetObject F) (added changed : ℕ) :
    List RespValue → ZSetObject F × Except RespValue (ℕ × ℕ)
  | score :: member :: args =>
    match (parseScore score : Option F), member.asBytes with
    | none, _ => (z, .error (.error "ERR value is not a valid float"))
    | some _, none => (z, .error (.error "ERR invalid member"))
    | some score, some member =>
      let oldScore := z.score member
      if options.nx && oldScore.isSome then addMembers options z added changed args
      else if options.xx && oldScore.isNone then addMembers options z added changed args
      else
        let r := z.add score member
        if r.2 then addMembers options r.1 (added + 1) changed args
        else if oldScore.any (Score.eq · score) then addMembers options r.1 added changed args
        else addMembers options r.1 added (changed + 1) args
  | _ => (z, .ok (added, changed))

def zadd [Environment] : Command F :=
  keyed "zadd" (3 ≤ ·) fun key args =>
    let p := addOptions {} args
    if p.2.length % 2 != 0 || p.2.length < 2 then return .error "ERR syntax error"
    else
      create now key (.zset {}) fun
        | .zset z =>
          match addMembers p.1 z 0 0 p.2 with
          | (z, .error e) => some (.zset z, e)
          | (z, .ok (added, changed)) =>
            some (.zset z, count (if p.1.ch then added + changed else added))
        | _ => none

def zrem : Command F :=
  keyed "zrem" (2 ≤ ·) fun key args =>
    change now key (count 0) fun
      | .zset z =>
        let r := countLoop ZSetObject.remove z (args.filterMap RespValue.asBytes)
        some (.zset r.1, count r.2)
      | _ => none

def formatted (score : F) : Bytes :=
  Text.asBytes (Score.format score)

def zscore : Command F :=
  keyed "zscore" (· == 2) fun key args =>
    argument RespValue.asBytes args 0 "ERR invalid member" fun member =>
      look now key .null fun
        | .zset z => some (bulkOrNull ((z.score member).map formatted))
        | _ => none

def zcard : Command F :=
  keyed "zcard" (· == 1) fun key _ =>
    look now key (count 0) fun
      | .zset z => some (count z.len)
      | _ => none

def withScores (args : List RespValue) : Bool :=
  (args[2]?.bind RespValue.asStr).any fun s => s.toLower == "withscores"

def zrange : Command F :=
  keyed "zrange" (3 ≤ ·) fun key args =>
    argument RespValue.asInt args 0 "ERR value is not an integer" fun start =>
      argument RespValue.asInt args 1 "ERR value is not an integer" fun stop => do
        match ← Database.get now key with
        | some (.zset z) =>
          if z.len = 0 then return bulks []
          else do
            let members ← slice z.sorted z.len start stop
            return bulks (members.flatMap fun e =>
              if withScores args then [e.2, formatted e.1] else [e.2])
        | some _ => return wrongType
        | none => return bulks []

def zrank : Command F :=
  keyed "zrank" (· == 2) fun key args =>
    argument RespValue.asBytes args 0 "ERR invalid member" fun member =>
      look now key .null fun
        | .zset z => some (((z.sorted.findIdx? (·.2 == member)).map count).getD .null)
        | _ => none

-- Bounds that are meant to be exclusive are taken as they are.
def parseScoreBound [Environment] (s : String) : Option F :=
  match Environment.toLowercase s with
  | "-inf" => some Score.negInfinity
  | "+inf" => some Score.infinity
  | "inf" => some Score.infinity
  | _ =>
    match s.toList with
    | '(' :: rest => Score.parse (String.ofList rest)
    | _ => Score.parse s

def zcount [Environment] : Command F :=
  keyed "zcount" (· == 3) fun key args =>
    let bound (v : RespValue) : Option F := parseScoreBound (v.asStr.getD "")
    argument bound args 0 "ERR min or max is not a float" fun min =>
      argument bound args 1 "ERR min or max is not a float" fun max =>
        look now key (count 0) fun
          | .zset z =>
            some (count (z.sorted.filter fun e => Score.le min e.1 && Score.le e.1 max).length)
          | _ => none

def zincrby : Command F :=
  keyed "zincrby" (· == 3) fun key args =>
    argument (parseScore (F := F)) args 0 "ERR value is not a valid float" fun increment =>
      argument RespValue.asBytes args 1 "ERR invalid member" fun member =>
        create now key (.zset {}) fun
          | .zset z =>
            let newScore := Score.add ((z.score member).getD Score.zero) increment
            some (.zset (z.add newScore member).1, .bulkString (some (formatted newScore)))
          | _ => none

end Cache.ZSets
