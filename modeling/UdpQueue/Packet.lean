import Mathlib.Data.List.AList

namespace UdpQueue

abbrev SizeT := UInt64
abbrev SocketT := Int

def socketInvalid : SocketT := -1

inductive AddressFamily where
  | unspec | inet | inet6
deriving DecidableEq, Repr

inductive SockType where
  | stream | dgram
deriving DecidableEq, Repr

inductive IpProtocol where
  | tcp | udp
deriving DecidableEq, Repr

-- `node` tells apart the results of different calls; a null `addrinfo*` is `none`
structure AddrInfo where
  node : Nat
  aiFamily : AddressFamily
  aiAddr : List UInt8
  aiAddrlen : Nat
deriving DecidableEq, Repr

structure Hints where
  aiFamily : AddressFamily := .unspec
  numericHost : Bool := false
  numericServ : Bool := false
  aiSocktype : SockType
  aiProtocol : IpProtocol
deriving DecidableEq, Repr

abbrev GetAddrInfo := String → String → Hints → Option AddrInfo

def resolveHints : Hints :=
  { numericHost := true, numericServ := true, aiSocktype := .dgram, aiProtocol := .udp }

def resolveAddress (getaddrinfo : GetAddrInfo) (address : String) (port : Int32) : Option AddrInfo :=
  getaddrinfo address (toString port.toInt) resolveHints

structure Queued where
  data : List UInt8 := []
  length : Nat := 0
deriving DecidableEq, Repr

structure Unsent where
  packet : Queued := {}
  address : Option AddrInfo := none
  explicitSocket : SocketT := 0
deriving DecidableEq, Repr

def Unsent.clear (packetOut : Unsent) : Unsent :=
  { packet := { packetOut.packet with data := [] }, address := none, explicitSocket := socketInvalid }

end UdpQueue
