import Bearmail.Imap.Token

/-!
# Expressions: tokens and items

The vocabulary of `common/src/expr/mod.rs`, with the two enumerations of the
registry schema that an expression can name and the tables of
`common/src/expr/functions/mod.rs`. A compiled regular expression is kept by its
pattern and a metric by its name: the crates that check them are parameters of
the tokenizer.
-/

namespace Bearmail.Expr

open Imap (utf8)

/-! ## Names -/

inductive ExpressionConstant where
  | relaxed | strict | disable | optional | require | ipv4Only | ipv6Only | ipv6ThenIpv4
  | ipv4ThenIpv6 | hourly | daily | weekly | login | plain | xoauth2 | oauthbearer | mixer
  | stanag4406 | nsep
  deriving DecidableEq, Repr

namespace ExpressionConstant

def asStr : ExpressionConstant → String
  | .relaxed => "relaxed"
  | .strict => "strict"
  | .disable => "disable"
  | .optional => "optional"
  | .require => "require"
  | .ipv4Only => "ipv4_only"
  | .ipv6Only => "ipv6_only"
  | .ipv6ThenIpv4 => "ipv6_then_ipv4"
  | .ipv4ThenIpv6 => "ipv4_then_ipv6"
  | .hourly => "hourly"
  | .daily => "daily"
  | .weekly => "weekly"
  | .login => "login"
  | .plain => "plain"
  | .xoauth2 => "xoauth2"
  | .oauthbearer => "oauthbearer"
  | .mixer => "mixer"
  | .stanag4406 => "stanag4406"
  | .nsep => "nsep"

def all : List ExpressionConstant :=
  [.relaxed, .strict, .disable, .optional, .require, .ipv4Only, .ipv6Only, .ipv6ThenIpv4,
  .ipv4ThenIpv6, .hourly, .daily, .weekly, .login, .plain, .xoauth2, .oauthbearer, .mixer,
  .stanag4406, .nsep]

def parse (value : List UInt8) : Option ExpressionConstant := all.find? fun v => utf8 v.asStr == value

theorem mem_all (v : ExpressionConstant) : v ∈ all := by
  cases v <;> decide

theorem parse_asStr (v : ExpressionConstant) : parse (utf8 v.asStr) = some v := by
  have hall : ∀ v ∈ all, parse (utf8 v.asStr) = some v := by decide +kernel
  exact hall v v.mem_all

end ExpressionConstant

inductive ExpressionVariable where
  | asn | attributes | authenticatedAs | authority | bcc | bccDomain | bccLocal | bccName | body
  | bodyHtml | bodyRaw | bodyText | bodyWords | cc | ccDomain | ccLocal | ccName | country | domain
  | email | emailLower | envFrom | envFromDomain | envFromLocal | envTo | expiresIn | «from»
  | fromDomain | fromLocal | fromName | headers | heloDomain | host | ip | ipReverse | isTls | isV4
  | isV6 | lastError | lastStatus | listener | «local» | localIp | localPort | location | method
  | mx | name | nameLower | notifyNum | octets | path | pathQuery | port | priority | protocol
  | query | queueAge | queueName | raw | rawLower | rcpt | rcptDomain | receivedFromIp
  | receivedViaPort | recipients | remoteIp | remoteIpPtr | remotePort | replyTo | replyToDomain
  | replyToLocal | replyToName | retryNum | reverseIp | scheme | sender | senderDomain | size | sld
  | source | subject | subjectThread | subjectWords | to | toDomain | toLocal | toName | url | value
  | valueLower
  deriving DecidableEq, Repr

namespace ExpressionVariable

def asStr : ExpressionVariable → String
  | .asn => "asn"
  | .attributes => "attributes"
  | .authenticatedAs => "authenticated_as"
  | .authority => "authority"
  | .bcc => "bcc"
  | .bccDomain => "bcc.domain"
  | .bccLocal => "bcc.local"
  | .bccName => "bcc.name"
  | .body => "body"
  | .bodyHtml => "body.html"
  | .bodyRaw => "body.raw"
  | .bodyText => "body.text"
  | .bodyWords => "body.words"
  | .cc => "cc"
  | .ccDomain => "cc.domain"
  | .ccLocal => "cc.local"
  | .ccName => "cc.name"
  | .country => "country"
  | .domain => "domain"
  | .email => "email"
  | .emailLower => "email_lower"
  | .envFrom => "env_from"
  | .envFromDomain => "env_from.domain"
  | .envFromLocal => "env_from.local"
  | .envTo => "env_to"
  | .expiresIn => "expires_in"
  | .«from» => "from"
  | .fromDomain => "from.domain"
  | .fromLocal => "from.local"
  | .fromName => "from.name"
  | .headers => "headers"
  | .heloDomain => "helo_domain"
  | .host => "host"
  | .ip => "ip"
  | .ipReverse => "ip_reverse"
  | .isTls => "is_tls"
  | .isV4 => "is_v4"
  | .isV6 => "is_v6"
  | .lastError => "last_error"
  | .lastStatus => "last_status"
  | .listener => "listener"
  | .«local» => "local"
  | .localIp => "local_ip"
  | .localPort => "local_port"
  | .location => "location"
  | .method => "method"
  | .mx => "mx"
  | .name => "name"
  | .nameLower => "name_lower"
  | .notifyNum => "notify_num"
  | .octets => "octets"
  | .path => "path"
  | .pathQuery => "path_query"
  | .port => "port"
  | .priority => "priority"
  | .protocol => "protocol"
  | .query => "query"
  | .queueAge => "queue_age"
  | .queueName => "queue_name"
  | .raw => "raw"
  | .rawLower => "raw_lower"
  | .rcpt => "rcpt"
  | .rcptDomain => "rcpt_domain"
  | .receivedFromIp => "received_from_ip"
  | .receivedViaPort => "received_via_port"
  | .recipients => "recipients"
  | .remoteIp => "remote_ip"
  | .remoteIpPtr => "remote_ip.ptr"
  | .remotePort => "remote_port"
  | .replyTo => "reply_to"
  | .replyToDomain => "reply_to.domain"
  | .replyToLocal => "reply_to.local"
  | .replyToName => "reply_to.name"
  | .retryNum => "retry_num"
  | .reverseIp => "reverse_ip"
  | .scheme => "scheme"
  | .sender => "sender"
  | .senderDomain => "sender_domain"
  | .size => "size"
  | .sld => "sld"
  | .source => "source"
  | .subject => "subject"
  | .subjectThread => "subject.thread"
  | .subjectWords => "subject.words"
  | .to => "to"
  | .toDomain => "to.domain"
  | .toLocal => "to.local"
  | .toName => "to.name"
  | .url => "url"
  | .value => "value"
  | .valueLower => "value_lower"

def all : List ExpressionVariable :=
  [.asn, .attributes, .authenticatedAs, .authority, .bcc, .bccDomain, .bccLocal, .bccName, .body,
  .bodyHtml, .bodyRaw, .bodyText, .bodyWords, .cc, .ccDomain, .ccLocal, .ccName, .country, .domain,
  .email, .emailLower, .envFrom, .envFromDomain, .envFromLocal, .envTo, .expiresIn, .«from»,
  .fromDomain, .fromLocal, .fromName, .headers, .heloDomain, .host, .ip, .ipReverse, .isTls, .isV4,
  .isV6, .lastError, .lastStatus, .listener, .«local», .localIp, .localPort, .location, .method,
  .mx, .name, .nameLower, .notifyNum, .octets, .path, .pathQuery, .port, .priority, .protocol,
  .query, .queueAge, .queueName, .raw, .rawLower, .rcpt, .rcptDomain, .receivedFromIp,
  .receivedViaPort, .recipients, .remoteIp, .remoteIpPtr, .remotePort, .replyTo, .replyToDomain,
  .replyToLocal, .replyToName, .retryNum, .reverseIp, .scheme, .sender, .senderDomain, .size, .sld,
  .source, .subject, .subjectThread, .subjectWords, .to, .toDomain, .toLocal, .toName, .url, .value,
  .valueLower]

def parse (value : List UInt8) : Option ExpressionVariable := all.find? fun v => utf8 v.asStr == value

theorem mem_all (v : ExpressionVariable) : v ∈ all := by
  cases v <;> decide

theorem parse_asStr (v : ExpressionVariable) : parse (utf8 v.asStr) = some v := by
  have hall : ∀ v ∈ all, parse (utf8 v.asStr) = some v := by decide +kernel
  exact hall v v.mem_all

end ExpressionVariable

inductive BinaryOperator where
  | add | subtract | multiply | divide
  | and | or | xor
  | eq | ne | lt | le | gt | ge
  deriving DecidableEq, Repr

def BinaryOperator.precedence : BinaryOperator → Nat
  | .multiply | .divide => 7
  | .add | .subtract => 6
  | .gt | .ge | .lt | .le => 5
  | .eq | .ne => 4
  | .xor => 3
  | .and => 2
  | .or => 1

theorem BinaryOperator.precedence_le (op : BinaryOperator) : op.precedence ≤ 7 := by
  cases op <;> decide

inductive UnaryOperator where
  | not | minus
  deriving DecidableEq, Repr

structure MetricType where
  name : List UInt8
  deriving DecidableEq, Repr

structure Regex where
  pattern : String
  deriving DecidableEq, Repr

inductive SystemVariable where
  | hostname | domain | nodeId | nodeHostname | nodeRole
  | metric (metric : MetricType)
  deriving DecidableEq, Repr

inductive Constant where
  | static (constant : ExpressionConstant)
  | integer (n : Int64)
  | float (f : Float)
  | string (s : String)

inductive Token where
  | var (v : ExpressionVariable)
  | global (name : List UInt8)
  | capture (n : Nat)
  | function (name : String) (fnc numArgs : Nat)
  | constant (c : Constant)
  | system (setting : SystemVariable)
  | regex (regex : Regex)
  | binaryOperator (op : BinaryOperator)
  | unaryOperator (op : UnaryOperator)
  | openParen | closeParen | openBracket | closeBracket | comma

inductive ExpressionItem where
  | var (v : ExpressionVariable)
  | global (name : List UInt8)
  | system (setting : SystemVariable)
  | capture (n : Nat)
  | constant (c : Constant)
  | binaryOperator (op : BinaryOperator)
  | unaryOperator (op : UnaryOperator)
  | regex (regex : Regex)
  | jmpIf (val : Bool) (pos : Nat)
  | function (fnc numArgs : Nat)
  | arrayAccess
  | arrayBuild (numItems : Nat)

/-! ## Functions -/

/-- `FUNCTIONS`: the names with the number of arguments, without the bodies. -/
def functions : List (String × Nat) :=
  [("count", 1), ("sort", 2), ("dedup", 1), ("winnow", 1), ("is_intersect", 2), ("is_email", 1),
  ("email_part", 2), ("is_empty", 1), ("is_number", 1), ("bit_and", 2), ("is_ip_addr", 1),
  ("is_ipv4_addr", 1), ("is_ipv6_addr", 1), ("is_ip_in_cidr", 2), ("ip_reverse_name", 1),
  ("trim", 1), ("trim_end", 1), ("trim_start", 1), ("len", 1), ("to_lowercase", 1),
  ("to_uppercase", 1), ("is_uppercase", 1), ("is_lowercase", 1), ("has_digits", 1),
  ("count_spaces", 1), ("count_uppercase", 1), ("count_lowercase", 1), ("count_chars", 1),
  ("contains", 2), ("contains_ignore_case", 2), ("eq_ignore_case", 2), ("starts_with", 2),
  ("ends_with", 2), ("lines", 1), ("substring", 3), ("strip_prefix", 2), ("strip_suffix", 2),
  ("split", 2), ("rsplit", 2), ("split_once", 2), ("rsplit_once", 2), ("split_n", 3),
  ("split_words", 1), ("hash", 2), ("if_then", 3)]

/-- `ASYNC_FUNCTIONS`: name, number from `F_IS_LOCAL_DOMAIN` on, number of arguments. -/
def asyncFunctions : List (String × Nat × Nat) :=
  [("is_local_domain", 0, 1), ("is_local_address", 1, 1), ("key_get", 2, 2), ("key_exists", 3, 2),
  ("key_set", 4, 3), ("counter_incr", 5, 3), ("counter_get", 6, 2), ("dns_query", 8, 2),
  ("sql_query", 7, 3)]

def idArrayAccess : Nat := 2 ^ 32 - 1

def idArrayBuild : Nat := 2 ^ 32 - 2

end Bearmail.Expr
